import Mathlib.Algebra.Order.BigOperators.Group.List
import ScaffCC.Resource.CriticalStep

/-!
# Profiles of functions

The exact profile of a function counts without bounds. What the pass stores is the exact profile
with its numbers cut to 64 bits, as long as no call is passed over and no profile that is added to
another one is too long for 32 bits. If a call is passed over or a profile is too long, gates are
missing.
-/

open Scheduling Fallible

namespace ScaffCC.CriticalResourceCount

/-! ## Exact profiles -/

/-- The gates of a timestep, without a bound. -/
abbrev Gates := Fin NUM_QGATES → ℕ

def exactGate (i : Fin NUM_QGATES) : Gates := fun k ↦ if k = i ∨ k = _All then 1 else 0

/-- The profile of a gate. Other names have no timesteps. -/
def gateProfile (n : Ident) : List Gates :=
  match (List.finRange NUM_QGATES).find? fun i ↦ intrinsic i == n with
  | some i => [exactGate i]
  | none => []

section Exact

variable (prof : Ident → List Gates)

def exactStep (d : List Call) : List Gates := Profile.mergeAll (d.map fun c ↦ prof c.qFunc)

/-- The profile of a function with the given calls. -/
def exactOf (cs : List Call) : List Gates := (stepsOf cs).flatMap (exactStep prof)

end Exact

/-- The profiles of all functions, callees first. -/
def exactProfiles (order : List Func) : Ident → List Gates :=
  order.foldl (fun prof F ↦ Function.update prof F.name (exactOf prof F.counted)) gateProfile

/-- The number of gates of a kind in a profile. -/
def total (p : List Gates) (k : Fin NUM_QGATES) : ℕ := (p.map (· k)).sum

/-- The number of gates of a kind in what is stored. -/
def stored (gates : List TSParGateInfo) (k : Fin NUM_QGATES) : ℕ :=
  (gates.map fun e ↦ (e k).toNat).sum

/-! ## Words -/

/-- The gates of a timestep, cut to 64 bits. -/
def words (e : Gates) : TSParGateInfo := fun k ↦ UInt64.ofNat (e k)

theorem words_add (e e' : Gates) : words (e + e') = words e + words e' :=
  funext fun k ↦ UInt64.ofNat_add (e k) (e' k)

theorem words_exactGate (i : Fin NUM_QGATES) : words (exactGate i) = gateInfo i := by
  funext k
  rw [words, exactGate, gateInfo]
  split <;> rfl

theorem toNat_ofNat {n : ℕ} (h : n < 2 ^ 64) : (UInt64.ofNat n).toNat = n :=
  UInt64.toNat_ofNat_of_lt' h

theorem toNat_words {e : Gates} {k : Fin NUM_QGATES} (h : e k < 2 ^ 64) :
    (words e k).toNat = e k :=
  toNat_ofNat h

theorem toNat_words_le (e : Gates) (k : Fin NUM_QGATES) : (words e k).toNat ≤ e k := by
  rw [words, UInt64.toNat_ofNat']
  exact Nat.mod_le _ _

theorem toNat_raise (m e : TSParGateInfo) (k : Fin NUM_QGATES) :
    (raise m e k).toNat = max (m k).toNat (e k).toNat := by
  rw [raise]
  split
  case isTrue h =>
    have hlt := UInt64.lt_iff_toNat_lt.mp h
    omega
  case isFalse h =>
    have hle := mt UInt64.lt_iff_toNat_lt.mpr h
    omega

theorem toNat_foldl_raise (gates : List TSParGateInfo) (m : TSParGateInfo) (k : Fin NUM_QGATES) :
    (gates.foldl raise m k).toNat = gates.foldl (fun n e ↦ max n (e k).toNat) (m k).toNat := by
  induction gates generalizing m with
  | nil => rfl
  | cons e gates ih => rw [List.foldl_cons, ih, toNat_raise, List.foldl_cons]

theorem foldl_max_eq {α : Type} (f : α → ℕ) (l : List α) (n : ℕ) :
    l.foldl (fun n e ↦ max n (f e)) n = max n (l.foldl (fun n e ↦ max n (f e)) 0) := by
  induction l generalizing n with
  | nil => simp
  | cons e l ih =>
    rw [List.foldl_cons, ih, List.foldl_cons, ih (max 0 (f e))]
    omega

/-- The greatest numbers of a profile may be compared instead of the timesteps. -/
theorem raise_foldl_raise (gates : List TSParGateInfo) (m : TSParGateInfo) :
    raise m (gates.foldl raise fun _ ↦ 0) = gates.foldl raise m := by
  funext k
  apply UInt64.toNat_inj.mp
  rw [toNat_raise, toNat_foldl_raise, toNat_foldl_raise]
  exact (foldl_max_eq (fun e : TSParGateInfo ↦ (e k).toNat) gates (m k).toNat).symm

theorem isGreatest_foldl_max {α : Type} (f : α → ℕ) {l : List α} (hl : l ≠ []) :
    IsGreatest {n | ∃ e ∈ l, n = f e} (l.foldl (fun n e ↦ max n (f e)) 0) := by
  induction l with
  | nil => exact absurd rfl hl
  | cons e l ih =>
    rw [List.foldl_cons, foldl_max_eq, Nat.zero_max]
    constructor
    · rcases le_total (l.foldl (fun n e ↦ max n (f e)) 0) (f e) with h | h
      · exact ⟨e, List.mem_cons_self, max_eq_left h⟩
      · rw [max_eq_right h]
        by_cases hnil : l = []
        · subst hnil
          exact ⟨e, List.mem_cons_self, (Nat.le_zero.mp h).symm⟩
        · obtain ⟨e', he', heq⟩ := (ih hnil).1
          exact ⟨e', List.mem_cons_of_mem e he', heq⟩
    · rintro n ⟨e', he', rfl⟩
      rcases List.mem_cons.mp he' with rfl | he'
      · exact le_max_left _ _
      · exact le_max_of_le_right ((ih (List.ne_nil_of_mem he')).2 ⟨e', he', rfl⟩)

/-! ## A step -/

theorem add_gates_eq {a b : TSInfo} (ha : a.gates.length < 2 ^ 32) (hb : b.gates.length < 2 ^ 32) :
    (a.add b).gates = Profile.merge a.gates b.gates := by
  rw [TSInfo.add]
  simp only [Nat.mod_eq_of_lt ha, Nat.mod_eq_of_lt hb, List.take_length]
  split
  case isTrue => exact Profile.merge_take_append_drop _ _
  case isFalse => rfl

/-- What is stored of a profile, and of the greatest numbers. -/
structure Stores (p : List Gates) (t : TSInfo) (x : MaxTSInfo) : Prop where
  gates : t.gates = p.map words
  timesteps : t.timesteps = UInt64.ofNat p.length
  parallel_gates : x.parallel_gates = t.gates.foldl raise fun _ ↦ 0

variable {prof : Ident → List Gates} {t : Ident → TSInfo} {x : Ident → MaxTSInfo} {d cs : List Call}

/-- A callee whose profile has been stored. -/
def Known (prof : Ident → List Gates) (t : Ident → TSInfo) (x : Ident → MaxTSInfo)
    (c : Call) : Prop :=
  Stores (prof c.qFunc) (t c.qFunc) (x c.qFunc)

theorem foldl_add_gates (hd : ∀ c ∈ d, Known prof t x c)
    (hlen : ∀ c ∈ d, (prof c.qFunc).length < 2 ^ 32) {p : List Gates} {a : TSInfo}
    (ha : a.gates = p.map words) (hats : a.timesteps = UInt64.ofNat p.length)
    (hp : p.length < 2 ^ 32) :
    let b := d.foldl (fun sum_info c ↦ sum_info.add (t c.qFunc)) a
    let q := (d.map fun c ↦ prof c.qFunc).foldl Profile.merge p
    b.gates = q.map words ∧ b.timesteps = UInt64.ofNat q.length := by
  induction d generalizing p a with
  | nil => exact ⟨ha, hats⟩
  | cons c d ih =>
    obtain ⟨hc, hd⟩ := List.forall_mem_cons.mp hd
    obtain ⟨hclen, hlen⟩ := List.forall_mem_cons.mp hlen
    have hagates : a.gates.length < 2 ^ 32 := by rwa [ha, List.length_map]
    have hcgates : (t c.qFunc).gates.length < 2 ^ 32 := by rwa [hc.gates, List.length_map]
    have hmerge : (Profile.merge p (prof c.qFunc)).length
        = max p.length (prof c.qFunc).length := Profile.length_merge _ _
    refine ih hd hlen (p := Profile.merge p (prof c.qFunc)) ?_ ?_ ?_
    · rw [add_gates_eq hagates hcgates, ha, hc.gates, Profile.map_merge words_add]
    · show (if (t c.qFunc).timesteps > a.timesteps then (t c.qFunc).timesteps else a.timesteps) = _
      rw [hmerge, hats, hc.timesteps]
      apply UInt64.toNat_inj.mp
      have hpn : (UInt64.ofNat p.length).toNat = p.length := toNat_ofNat (by omega)
      have hcn : (UInt64.ofNat (prof c.qFunc).length).toNat = (prof c.qFunc).length :=
        toNat_ofNat (by omega)
      rw [toNat_ofNat (n := max p.length (prof c.qFunc).length) (by omega)]
      split
      case isTrue h =>
        have hlt := UInt64.lt_iff_toNat_lt.mp h
        omega
      case isFalse h =>
        have hle := mt UInt64.lt_iff_toNat_lt.mpr h
        omega
    · rw [hmerge]
      omega

/-- **A step stores the exact profile**, unless one that is added to another is too long. -/
theorem stepInfo_eq (hd : ∀ c ∈ d, Known prof t x c)
    (hlen : 1 < d.length → ∀ c ∈ d, (prof c.qFunc).length < 2 ^ 32) :
    (stepInfo t d).gates = (exactStep prof d).map words ∧
      (stepInfo t d).timesteps = UInt64.ofNat (exactStep prof d).length := by
  match d with
  | [] => exact ⟨rfl, rfl⟩
  | [c] =>
    have hc := hd c (List.mem_singleton.mpr rfl)
    exact ⟨hc.gates, hc.timesteps⟩
  | c :: c' :: d =>
    exact foldl_add_gates hd (hlen (by simp)) (p := []) (a := ⟨0, []⟩) rfl rfl (by norm_num)

theorem stepMax_eq (hd : ∀ c ∈ d, Known prof t x c) (m : TSParGateInfo) :
    stepMax t x m d = (stepInfo t d).gates.foldl raise m := by
  match d with
  | [] => rfl
  | [c] =>
    have hc := hd c (List.mem_singleton.mpr rfl)
    rw [stepMax, hc.parallel_gates, raise_foldl_raise, stepInfo]
  | c :: c' :: d => rfl

/-! ## A function -/

theorem gatesOf_eq {ds : List (List Call)} (hds : ∀ d ∈ ds, ∀ c ∈ d, Known prof t x c)
    (hlen : ∀ d ∈ ds, 1 < d.length → ∀ c ∈ d, (prof c.qFunc).length < 2 ^ 32) :
    gatesOf t ds = (ds.flatMap (exactStep prof)).map words := by
  rw [gatesOf, List.map_flatMap]
  exact List.flatMap_congr fun d hd ↦ (stepInfo_eq (hds d hd) (hlen d hd)).1

theorem timestepsOf_eq {ds : List (List Call)} (hds : ∀ d ∈ ds, ∀ c ∈ d, Known prof t x c)
    (hlen : ∀ d ∈ ds, 1 < d.length → ∀ c ∈ d, (prof c.qFunc).length < 2 ^ 32) :
    timestepsOf t ds = UInt64.ofNat (ds.flatMap (exactStep prof)).length := by
  induction ds using List.reverseRecOn with
  | nil => rfl
  | append_singleton ds d ih =>
    have hd : d ∈ ds ++ [d] := List.mem_append_right _ (List.mem_singleton.mpr rfl)
    rw [timestepsOf_append, ih (fun d hd ↦ hds d (List.mem_append_left _ hd))
        (fun d hd ↦ hlen d (List.mem_append_left _ hd)),
      (stepInfo_eq (hds d hd) (hlen d hd)).2, List.flatMap_append, List.flatMap_singleton,
      List.length_append, UInt64.ofNat_add]

theorem maxOf_eq {ds : List (List Call)} (hds : ∀ d ∈ ds, ∀ c ∈ d, Known prof t x c) :
    maxOf t x ds = (gatesOf t ds).foldl raise fun _ ↦ 0 := by
  induction ds using List.reverseRecOn with
  | nil => rfl
  | append_singleton ds d ih =>
    have hd : d ∈ ds ++ [d] := List.mem_append_right _ (List.mem_singleton.mpr rfl)
    rw [maxOf_append, ih fun d hd ↦ hds d (List.mem_append_left _ hd), stepMax_eq (hds d hd),
      gatesOf_append, List.foldl_append]

theorem mem_of_mem_stepsOf (hd : d ∈ stepsOf cs) {c : Call} (hc : c ∈ d) : c ∈ cs := by
  rw [← Greedy.flatten_steps_run (r := Call.shares) cs]
  exact List.mem_flatten.mpr ⟨d, hd, hc⟩

/-- **What is stored for a function is its exact profile.** -/
theorem stores_infoOf (hcs : ∀ c ∈ cs, Known prof t x c)
    (hlen : ∀ d ∈ stepsOf cs, 1 < d.length → ∀ c ∈ d, (prof c.qFunc).length < 2 ^ 32) :
    Stores (exactOf prof cs) (infoOf t cs) (maxInfoOf t x cs) := by
  have hds : ∀ d ∈ stepsOf cs, ∀ c ∈ d, Known prof t x c :=
    fun d hd c hc ↦ hcs c (mem_of_mem_stepsOf hd hc)
  exact ⟨gatesOf_eq hds hlen, timestepsOf_eq hds hlen, maxOf_eq hds⟩

/-! ## Gates that are missing -/

theorem stored_append (gates gates' : List TSParGateInfo) (k : Fin NUM_QGATES) :
    stored (gates ++ gates') k = stored gates k + stored gates' k := by
  rw [stored, List.map_append, List.sum_append, ← stored, ← stored]

theorem stored_merge_le (gates gates' : List TSParGateInfo) (k : Fin NUM_QGATES) :
    stored (Profile.merge gates gates') k ≤ stored gates k + stored gates' k := by
  refine Profile.sum_map_merge_le (fun e e' ↦ ?_) gates gates'
  rw [Pi.add_apply, UInt64.toNat_add]
  exact Nat.mod_le _ _

/-- What is read of a profile that is added to another one. -/
def kept (gates : List TSParGateInfo) : List TSParGateInfo := gates.take (gates.length % 2 ^ 32)

theorem stored_kept_le (gates : List TSParGateInfo) (k : Fin NUM_QGATES) :
    stored (kept gates) k ≤ stored gates k := by
  have hsplit := stored_append (kept gates) (gates.drop (gates.length % 2 ^ 32)) k
  rw [kept, List.take_append_drop, ← kept] at hsplit
  omega

theorem stored_add_le (a b : TSInfo) (k : Fin NUM_QGATES) :
    stored (a.add b).gates k ≤ stored a.gates k + stored (kept b.gates) k := by
  rw [TSInfo.add]
  simp only
  split
  case isTrue h =>
    have hsplit : kept b.gates = b.gates.take (a.gates.length % 2 ^ 32)
        ++ (kept b.gates).drop (a.gates.length % 2 ^ 32) := by
      conv_lhs => rw [← List.take_append_drop (a.gates.length % 2 ^ 32) (kept b.gates)]
      rw [kept, List.take_take, min_eq_left h.le]
    have hmerge := stored_merge_le a.gates (b.gates.take (a.gates.length % 2 ^ 32)) k
    rw [hsplit, stored_append, stored_append, ← kept]
    omega
  case isFalse => exact stored_merge_le a.gates (kept b.gates) k

theorem stored_foldl_add_le (d : List Call) (a : TSInfo) (k : Fin NUM_QGATES) :
    stored (d.foldl (fun sum_info c ↦ sum_info.add (t c.qFunc)) a).gates k
      ≤ stored a.gates k + (d.map fun c ↦ stored (kept (t c.qFunc).gates) k).sum := by
  induction d generalizing a with
  | nil => simp
  | cons c d ih =>
    have hadd := stored_add_le a (t c.qFunc) k
    have hrest := ih (a.add (t c.qFunc))
    rw [List.foldl_cons, List.map_cons, List.sum_cons]
    omega

theorem stored_stepInfo_le (d : List Call) (k : Fin NUM_QGATES) :
    stored (stepInfo t d).gates k ≤ (d.map fun c ↦ stored (t c.qFunc).gates k).sum := by
  have hle : (d.map fun c ↦ stored (kept (t c.qFunc).gates) k).sum
      ≤ (d.map fun c ↦ stored (t c.qFunc).gates k).sum :=
    List.sum_le_sum fun c _ ↦ stored_kept_le _ k
  match d with
  | [] => exact le_rfl
  | [c] => simp [stepInfo]
  | c :: c' :: d =>
    have hfold := stored_foldl_add_le (t := t) (c :: c' :: d) ⟨0, []⟩ k
    rw [show stored [] k = 0 from rfl, Nat.zero_add] at hfold
    exact hfold.trans hle

/-- A profile that is too long for 32 bits loses gates when it is added to another one. -/
theorem stored_stepInfo_lt {k : Fin NUM_QGATES} (hd : 1 < d.length)
    (hlost : ∃ c ∈ d, stored (kept (t c.qFunc).gates) k < stored (t c.qFunc).gates k) :
    stored (stepInfo t d).gates k < (d.map fun c ↦ stored (t c.qFunc).gates k).sum := by
  have hlt : (d.map fun c ↦ stored (kept (t c.qFunc).gates) k).sum
      < (d.map fun c ↦ stored (t c.qFunc).gates k).sum :=
    List.sum_lt_sum _ _ (fun c _ ↦ stored_kept_le _ k) hlost
  match d, hd, hlt with
  | c :: c' :: d, _, hlt =>
    have hfold := stored_foldl_add_le (t := t) (c :: c' :: d) ⟨0, []⟩ k
    rw [show stored [] k = 0 from rfl, Nat.zero_add] at hfold
    exact hfold.trans_lt hlt

theorem stored_gatesOf (ds : List (List Call)) (k : Fin NUM_QGATES) :
    stored (gatesOf t ds) k = (ds.map fun d ↦ stored (stepInfo t d).gates k).sum := by
  induction ds with
  | nil => rfl
  | cons d ds ih =>
    rw [gatesOf, List.flatMap_cons, ← gatesOf, stored_append, ih, List.map_cons, List.sum_cons]

theorem sum_map_stepsOf (f : Call → ℕ) (cs : List Call) :
    ((stepsOf cs).map fun d ↦ (d.map f).sum).sum = (cs.map f).sum := by
  conv_rhs => rw [← Greedy.flatten_steps_run (r := Call.shares) cs]
  rw [List.map_flatten, List.sum_flatten, List.map_map, stepsOf]
  rfl

theorem stored_infoOf_le (cs : List Call) (k : Fin NUM_QGATES) :
    stored (infoOf t cs).gates k ≤ (cs.map fun c ↦ stored (t c.qFunc).gates k).sum := by
  rw [infoOf, stored_gatesOf, ← sum_map_stepsOf]
  exact List.sum_le_sum fun d _ ↦ stored_stepInfo_le d k

/-- If it has all of them, no profile that is added to another one is too long. -/
theorem length_lt_of_stored_infoOf {k : Fin NUM_QGATES}
    (hpos : ∀ c ∈ cs, ∀ e ∈ (t c.qFunc).gates, 0 < (e k).toNat)
    (heq : (cs.map fun c ↦ stored (t c.qFunc).gates k).sum ≤ stored (infoOf t cs).gates k) :
    ∀ d ∈ stepsOf cs, 1 < d.length → ∀ c ∈ d, (t c.qFunc).gates.length < 2 ^ 32 := by
  intro d hd hlen c hc
  by_contra hlong
  have hlost : stored (kept (t c.qFunc).gates) k < stored (t c.qFunc).gates k := by
    have hsplit := stored_append (kept (t c.qFunc).gates)
      ((t c.qFunc).gates.drop ((t c.qFunc).gates.length % 2 ^ 32)) k
    rw [kept, List.take_append_drop, ← kept] at hsplit
    have hmod := Nat.mod_lt (t c.qFunc).gates.length (y := 2 ^ 32) (by norm_num)
    have hrest : (t c.qFunc).gates.drop ((t c.qFunc).gates.length % 2 ^ 32) ≠ [] := by
      rw [Ne, List.drop_eq_nil_iff]
      omega
    obtain ⟨e, he⟩ := List.exists_mem_of_ne_nil _ hrest
    have he0 := hpos c (mem_of_mem_stepsOf hd hc) e (List.mem_of_mem_drop he)
    have hle : (e k).toNat
        ≤ stored ((t c.qFunc).gates.drop ((t c.qFunc).gates.length % 2 ^ 32)) k :=
      List.le_sum_of_mem (List.mem_map.mpr ⟨e, he, rfl⟩)
    omega
  have hlt : ((stepsOf cs).map fun d ↦ stored (stepInfo t d).gates k).sum
      < ((stepsOf cs).map fun d ↦ (d.map fun c ↦ stored (t c.qFunc).gates k).sum).sum :=
    List.sum_lt_sum _ _ (fun d _ ↦ stored_stepInfo_le d k)
      ⟨d, hd, stored_stepInfo_lt hlen ⟨c, hc, hlost⟩⟩
  rw [sum_map_stepsOf, ← stored_gatesOf] at hlt
  exact absurd hlt (not_lt.mpr heq)

end ScaffCC.CriticalResourceCount
