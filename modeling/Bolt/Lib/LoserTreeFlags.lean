import Bolt.Lib.LoserTree

/-!
# Loser trees that report equal contestants

The tournament of `LoserTree` under a three-way comparison, where every stored loser and
every winner carries a flag: its own source has an equal successor, or another contestant
below the node is equal to it. Dropping the flags gives back `first` and `propagate`.
-/

namespace Bolt.Lib.LoserTree

open Sorting
open Std (TransCmp OrientedCmp)

variable {α : Type} (cmp : α → α → Ordering) (key : ℕ → Option α) (repeats : ℕ → Bool) (internal : ℕ)
variable {v c : ℕ}

def compareAt (i j : ℕ) : Ordering :=
  match key i, key j with
  | some a, some b => cmp a b
  | _, _ => .gt

abbrev Stored : Type := (ℕ → Option ℕ) × (ℕ → Bool)

def Stored.put (stored : Stored) (node : ℕ) (loser : Option ℕ) (flag : Bool) : Stored :=
  (Function.update stored.1 node loser, Function.update stored.2 node flag)

def Stored.at (stored : Stored) (node : ℕ) : Option ℕ × Bool := (stored.1 node, stored.2 node)

def liveFlagged (i : ℕ) : Option ℕ × Bool := if (key i).isSome then (some i, repeats i) else (none, false)

/-- The match between the winners below the two children of a node. -/
def firstMatchFlagged (node : ℕ) (left right : Option ℕ × Bool) (stored : Stored) : (Option ℕ × Bool) × Stored :=
  match left.1, right.1 with
  | none, _ => (right, stored)
  | some _, none => (left, stored)
  | some i, some j =>
    match compareAt cmp key i j with
    | .eq => ((some i, true), stored.put node (some j) right.2)
    | .lt => (left, stored.put node (some j) right.2)
    | .gt => (right, stored.put node (some i) left.2)

def firstFlagged (node : ℕ) (stored : Stored) : (Option ℕ × Bool) × Stored :=
  if internal ≤ node then
    (liveFlagged key repeats (node - internal), stored)
  else
    let left := firstFlagged (2 * node + 1) stored
    let right := firstFlagged (2 * node + 2) left.2
    firstMatchFlagged cmp key node left.1 right.1 right.2
termination_by internal - node

def replayMatchFlagged (node : ℕ) (value : Option ℕ × Bool) (stored : Stored) : (Option ℕ × Bool) × Stored :=
  match stored.1 node, value.1 with
  | none, _ => (value, stored)
  | some loser, none => ((some loser, stored.2 node), stored.put node none false)
  | some loser, some i =>
    match compareAt cmp key loser i with
    | .eq => ((some i, true), stored)
    | .lt => ((some loser, stored.2 node), stored.put node (some i) value.2)
    | .gt => (value, stored)

def replayFlagged (node : ℕ) (value : Option ℕ × Bool) (stored : Stored) : (Option ℕ × Bool) × Stored :=
  let played := replayMatchFlagged cmp key node value stored
  if node = 0 then played else replayFlagged (parent node) played.1 played.2
termination_by node
decreasing_by exact parent_lt (by assumption)

/-- The matches from a node to the root, with the nodes without a loser skipped first. -/
def propagateFlagged (node : ℕ) (value : Option ℕ × Bool) (stored : Stored) : (Option ℕ × Bool) × Stored :=
  match skipEmpty node stored.1 with
  | none => (value, stored)
  | some node => replayFlagged cmp key node value stored

theorem propagateFlagged_eq_replayFlagged (node : ℕ) (value : Option ℕ × Bool) (stored : Stored) :
    propagateFlagged cmp key node value stored = replayFlagged cmp key node value stored := by
  induction node using Nat.strongRecOn with
  | ind node ih =>
    unfold propagateFlagged
    rw [skipEmpty]
    by_cases hl : (stored.1 node).isSome
    · rw [if_pos hl]
    · have hn : stored.1 node = none := by simpa using hl
      have hm : replayMatchFlagged cmp key node value stored = (value, stored) := by
        unfold replayMatchFlagged
        rw [hn]
      rw [if_neg hl, replayFlagged, hm]
      by_cases hz : node = 0
      · rw [if_pos hz, if_pos hz]
      · rw [if_neg hz, if_neg hz]
        exact ih (parent node) (parent_lt hz)

theorem beats_isLE (i j : ℕ) : beats (fun a b => (cmp a b).isLE) key i j = (compareAt cmp key i j).isLE := by
  unfold beats compareAt
  cases key i <;> cases key j <;> rfl

theorem beats_isLT (i j : ℕ) : beats (fun a b => (cmp a b).isLT) key i j = (compareAt cmp key i j).isLT := by
  unfold beats compareAt
  cases key i <;> cases key j <;> rfl

theorem liveFlagged_fst (i : ℕ) : (liveFlagged key repeats i).1 = live key i := by
  unfold liveFlagged live
  split_ifs <;> rfl

theorem firstFlagged_eq (node : ℕ) (stored : Stored) :
    (firstFlagged cmp key repeats internal node stored).1.1 = (first (fun a b => (cmp a b).isLE) key internal node stored.1).1 ∧
      (firstFlagged cmp key repeats internal node stored).2.1 =
        (first (fun a b => (cmp a b).isLE) key internal node stored.1).2 := by
  rw [firstFlagged, first]
  split_ifs with hlea
  · exact ⟨liveFlagged_fst key repeats _, rfl⟩
  · dsimp only
    obtain ⟨hl, hlo⟩ := firstFlagged_eq (2 * node + 1) stored
    rw [← hlo, ← hl]
    obtain ⟨hri, hlo'⟩ :=
      firstFlagged_eq (2 * node + 2) (firstFlagged cmp key repeats internal (2 * node + 1) stored).2
    rw [← hlo', ← hri]
    generalize firstFlagged cmp key repeats internal (2 * node + 1) stored = left
    generalize firstFlagged cmp key repeats internal (2 * node + 2) left.2 = right
    obtain ⟨⟨left, leftFlag⟩, _⟩ := left
    obtain ⟨⟨right, rightFlag⟩, stored'⟩ := right
    unfold firstMatchFlagged
    cases left with
    | none => exact ⟨rfl, rfl⟩
    | some i =>
      cases right with
      | none => exact ⟨rfl, rfl⟩
      | some j =>
        dsimp only
        rw [beats_isLE]
        cases compareAt cmp key i j <;> exact ⟨rfl, rfl⟩
termination_by internal - node

theorem replayMatchFlagged_eq (node : ℕ) (value : Option ℕ × Bool) (stored : Stored) :
    (replayMatchFlagged cmp key node value stored).1.1 =
        (replayMatch (fun a b => (cmp a b).isLT) key node value.1 stored.1).1 ∧
      (replayMatchFlagged cmp key node value stored).2.1 =
        (replayMatch (fun a b => (cmp a b).isLT) key node value.1 stored.1).2 := by
  unfold replayMatchFlagged replayMatch
  obtain ⟨value, flag⟩ := value
  cases stored.1 node with
  | none => exact ⟨rfl, rfl⟩
  | some loser =>
    cases value with
    | none => exact ⟨rfl, rfl⟩
    | some i =>
      dsimp only
      rw [beats_isLT]
      cases compareAt cmp key loser i <;> exact ⟨rfl, rfl⟩

theorem replayFlagged_eq_replay (node : ℕ) (value : Option ℕ × Bool) (stored : Stored) :
    (replayFlagged cmp key node value stored).1.1 = (replay (fun a b => (cmp a b).isLT) key node value.1 stored.1).1 ∧
      (replayFlagged cmp key node value stored).2.1 = (replay (fun a b => (cmp a b).isLT) key node value.1 stored.1).2 := by
  induction node using Nat.strongRecOn generalizing value stored with
  | ind node ih =>
    obtain ⟨hva, hl⟩ := replayMatchFlagged_eq cmp key node value stored
    rw [replayFlagged, replay]
    split_ifs with hz
    · exact ⟨hva, hl⟩
    · rw [← hva, ← hl]
      exact ih (parent node) (parent_lt hz) _ _

/-! ## What the flags say -/

/-- Another contestant below the node is equal, or the contestant's own source goes on with an
equal one. -/
def Twin (v i : ℕ) : Prop :=
  repeats i = true ∨
    ∃ j ≤ internal, j ≠ i ∧ InSubtree v (internal + j) ∧ ∃ a b, key i = some a ∧ key j = some b ∧ cmp a b = .eq

structure Wins (v : ℕ) (winner : Option ℕ) : Prop where
  placed : ∀ i, winner = some i → i ≤ internal ∧ (key i).isSome ∧ InSubtree v (internal + i)
  least : ∀ k ≤ internal, ∀ b, key k = some b → InSubtree v (internal + k) →
    ∃ i a, winner = some i ∧ key i = some a ∧ (cmp b a).isLT = false

/-- The flags at all inner nodes. A loser stands below one child of its node, and its flag is
about that side only. -/
def Flagged (stored : Stored) : Prop :=
  ∀ v < internal, ∀ j, stored.1 v = some j → ∀ c, IsChild c v → InSubtree c (internal + j) →
    (stored.2 v = true ↔ Twin cmp key repeats internal c j)

variable {cmp key repeats internal}

theorem wins_of_outcomes [TransCmp cmp] {losers winner : ℕ → Option ℕ}
    (hl : ∀ i ≤ internal, winner (internal + i) = live key i) (hv : v ≤ 2 * internal)
    (hn : ∀ u < internal, InSubtree v u →
      Outcome (fun a b => (cmp a b).isLT) key (winner (2 * u + 1)) (winner (2 * u + 2)) (winner u) (losers u)) :
    Wins cmp key internal v (winner v) where
  placed _ hw := inSubtree_of_winner hl hn hv hw
  least _ hk _ hb hs := least_below hl hn (strictWeak_isLT cmp) hk hb hs

theorem eq_of_inSubtree_leaf {u : ℕ} (hv : internal ≤ v) (h : InSubtree v u) (hu : u ≤ 2 * internal) : u = v := by
  rcases h.cases_child with rfl | ⟨c, hc, hcu⟩
  · rfl
  · have hle := hcu.le
    unfold IsChild at hc
    omega

theorem twin_leaf (i : ℕ) : Twin cmp key repeats internal (internal + i) i ↔ repeats i = true := by
  refine ⟨fun h => h.resolve_right ?_, .inl⟩
  rintro ⟨j, hj, hne, hs, _⟩
  have heq := eq_of_inSubtree_leaf (Nat.le_add_right internal i) hs (by omega)
  omega

theorem compareAt_eq {i j : ℕ} {a b : α} (ha : key i = some a) (hb : key j = some b) : compareAt cmp key i j = cmp a b := by
  unfold compareAt
  rw [ha, hb]

/-- The winner of a match repeats if it did so on its side or if it is equal to the winner of
the other side. -/
theorem twin_match [TransCmp cmp] {d i : ℕ} (hc : IsChild c v) (hd : IsChild d v) (hcd : c ≠ d) (hv : v < internal)
    {other : Option ℕ} (ho : Wins cmp key internal d other) (hi : InSubtree c (internal + i))
    (hbe : ∀ j, other = some j → (compareAt cmp key j i).isLT = false) :
    Twin cmp key repeats internal v i ↔ Twin cmp key repeats internal c i ∨
      ∃ j a b, other = some j ∧ key i = some a ∧ key j = some b ∧ cmp a b = .eq := by
  constructor
  · rintro (hr | ⟨k, hk, hne, hs, a, b, ha, hb, heq⟩)
    · exact .inl (.inl hr)
    · rcases hs.cases_child with hse | ⟨e, he, hek⟩
      · omega
      · by_cases hec : e = c
        · exact .inl (.inr ⟨k, hk, hne, hec ▸ hek, a, b, ha, hb, heq⟩)
        · obtain rfl : e = d := by
            unfold IsChild at he hc hd
            omega
          -- the other winner lies between the contestant and its equal
          obtain ⟨j, b', hj, hb', hle⟩ := ho.least k hk b hb hek
          have hge := hbe j hj
          refine .inr ⟨j, a, b', hj, ha, hb', ?_⟩
          rw [TransCmp.congr_left (OrientedCmp.eq_symm heq)] at hle
          have hsw : cmp b' a = (cmp a b').swap := OrientedCmp.eq_swap
          rw [compareAt_eq hb' ha, hsw] at hge
          revert hle hge
          cases cmp a b' <;> simp
  · rintro ((hr | ⟨k, hk, hne, hs, hequ⟩) | ⟨j, a, b, hj, ha, hb, heq⟩)
    · exact .inl hr
    · exact .inr ⟨k, hk, hne, hc.inSubtree.trans hs, hequ⟩
    · obtain ⟨hjl, _, hjsub⟩ := ho.placed j hj
      refine .inr ⟨j, hjl, ?_, hd.inSubtree.trans hjsub, a, b, ha, hb, heq⟩
      rintro rfl
      exact hc.apart hd hcd hi hjsub

variable (cmp key) in
/-- A match with flags: the two sides, then the winner and the loser. Of two equal contestants
the one of the first side wins. -/
inductive FlagMatch : Option ℕ × Bool → Option ℕ × Bool → Option ℕ × Bool → Option ℕ × Bool → Prop
  | first_absent (f g : Bool) (other : Option ℕ × Bool) : FlagMatch (none, f) other other (none, g)
  | second_absent (f g : Bool) (other : Option ℕ × Bool) : FlagMatch other (none, f) other (none, g)
  | equal {i j : ℕ} {a b : α} (f g : Bool) (ha : key i = some a) (hb : key j = some b) (h : cmp a b = .eq) :
    FlagMatch (some i, f) (some j, g) (some i, true) (some j, g)
  | first_wins {i j : ℕ} {a b : α} (f g : Bool) (ha : key i = some a) (hb : key j = some b) (h : cmp a b = .lt) :
    FlagMatch (some i, f) (some j, g) (some i, f) (some j, g)
  | second_wins {i j : ℕ} {a b : α} (f g : Bool) (ha : key i = some a) (hb : key j = some b) (h : cmp a b = .gt) :
    FlagMatch (some i, f) (some j, g) (some j, g) (some i, f)

variable (cmp key repeats internal) in
/-- The winner below a node comes with the right flag. -/
structure Side (v : ℕ) (winner : Option ℕ × Bool) : Prop where
  wins : Wins cmp key internal v winner.1
  flag : ∀ i, winner.1 = some i → (winner.2 = true ↔ Twin cmp key repeats internal v i)

theorem Side.flag_child {loser : Option ℕ × Bool} (h : Side cmp key repeats internal c loser) (hc : IsChild c v) {j : ℕ}
    (hj : loser.1 = some j) {e : ℕ} (he : IsChild e v) (hej : InSubtree e (internal + j)) :
    loser.2 = true ↔ Twin cmp key repeats internal e j := by
  rw [child_unique he hc hej (h.wins.placed j hj).2.2]
  exact h.flag j hj

section

variable [TransCmp cmp] {d : ℕ} (hc : IsChild c v) (hd : IsChild d v) (hcd : c ≠ d) (hv : v < internal)
include hc hd hcd hv

/-- The winner of a match that is not lost keeps its flag, and a tie sets it. -/
theorem Side.flag_winner {x y : Option ℕ × Bool} (hx : Side cmp key repeats internal c x)
    (hy : Side cmp key repeats internal d y) {i : ℕ} (hi : x.1 = some i)
    (hbe : ∀ j, y.1 = some j → compareAt cmp key j i = .gt) :
    x.2 = true ↔ Twin cmp key repeats internal v i := by
  rw [twin_match hc hd hcd hv hy.wins (hx.wins.placed i hi).2.2, hx.flag i hi]
  · refine ⟨.inl, fun h => h.resolve_right ?_⟩
    rintro ⟨j, a, b, hj, ha, hb, heq⟩
    have hgt := hbe j hj
    rw [compareAt_eq hb ha, OrientedCmp.eq_symm heq] at hgt
    cases hgt
  · intro j hj
    rw [hbe j hj]
    rfl

theorem FlagMatch.flags {x y winner loser : Option ℕ × Bool} (h : FlagMatch cmp key x y winner loser)
    (hx : Side cmp key repeats internal c x) (hy : Side cmp key repeats internal d y) :
    (∀ i, winner.1 = some i → (winner.2 = true ↔ Twin cmp key repeats internal v i)) ∧
      ∀ j, loser.1 = some j → ∀ e, IsChild e v → InSubtree e (internal + j) →
        (loser.2 = true ↔ Twin cmp key repeats internal e j) := by
  cases h with
  | first_absent f g =>
    refine ⟨fun i hi => ?_, fun j hj => by cases hj⟩
    exact Side.flag_winner hd hc hcd.symm hv hy hx hi fun j hj => by cases hj
  | second_absent f g =>
    refine ⟨fun i hi => ?_, fun j hj => by cases hj⟩
    exact Side.flag_winner hc hd hcd hv hx hy hi fun j hj => by cases hj
  | @equal i j a b f g ha hb heq =>
    refine ⟨fun k hk => ?_, fun k hk e he hek => hy.flag_child hd hk he hek⟩
    injection hk with hk
    subst hk
    refine iff_of_true rfl ((twin_match hc hd hcd hv hy.wins (hx.wins.placed i rfl).2.2 ?_).mpr ?_)
    · intro j' hj
      obtain rfl := Option.some.inj hj
      rw [compareAt_eq hb ha, OrientedCmp.eq_symm heq]
      rfl
    · exact .inr ⟨j, a, b, rfl, ha, hb, heq⟩
  | @first_wins i j a b f g ha hb hlt =>
    refine ⟨fun k hk => ?_, fun k hk e he hek => hy.flag_child hd hk he hek⟩
    refine Side.flag_winner hc hd hcd hv hx hy hk fun j' hj => ?_
    obtain rfl := Option.some.inj hj
    obtain rfl := Option.some.inj hk
    exact (compareAt_eq hb ha).trans (OrientedCmp.gt_of_lt hlt)
  | @second_wins i j a b f g ha hb hgt =>
    refine ⟨fun k hk => ?_, fun k hk e he hek => hx.flag_child hc hk he hek⟩
    refine Side.flag_winner hd hc hcd.symm hv hy hx hk fun j' hj => ?_
    obtain rfl := Option.some.inj hj
    obtain rfl := Option.some.inj hk
    exact (compareAt_eq ha hb).trans hgt

end

/-! ## Playing all matches -/

theorem decides_isLE [TransCmp cmp] : Decides (fun a b => (cmp a b).isLT) (fun a b => (cmp a b).isLE) where
  of_true {a b} h := by
    have hs : cmp b a = (cmp a b).swap := OrientedCmp.eq_swap
    rw [hs]
    revert h
    cases cmp a b <;> simp
  of_false {a b} h := by
    revert h
    cases cmp a b <;> simp

theorem Stored.at_put_self (stored : Stored) (node : ℕ) (loser : Option ℕ) (flag : Bool) :
    (stored.put node loser flag).at node = (loser, flag) :=
  Prod.ext (Function.update_self ..) (Function.update_self ..)

theorem Stored.at_put_of_ne (stored : Stored) {node u : ℕ} (h : u ≠ node) (loser : Option ℕ) (flag : Bool) :
    (stored.put node loser flag).at u = stored.at u :=
  Prod.ext (Function.update_of_ne h _ _) (Function.update_of_ne h _ _)

section First

variable (cmp key repeats internal)

theorem firstFlagged_inner {node : ℕ} (hn : node < internal) (stored : Stored) :
    firstFlagged cmp key repeats internal node stored =
      firstMatchFlagged cmp key node (firstFlagged cmp key repeats internal (2 * node + 1) stored).1
        (firstFlagged cmp key repeats internal (2 * node + 2)
          (firstFlagged cmp key repeats internal (2 * node + 1) stored).2).1
        (firstFlagged cmp key repeats internal (2 * node + 2)
          (firstFlagged cmp key repeats internal (2 * node + 1) stored).2).2 := by
  rw [firstFlagged, if_neg (not_le.mpr hn)]

theorem firstFlagged_stored {node : ℕ} (hn : node < internal) (stored : Stored) {u : ℕ} (hu : u ≠ node) :
    (firstFlagged cmp key repeats internal node stored).2.at u = (firstFlagged cmp key repeats internal (2 * node + 2)
        (firstFlagged cmp key repeats internal (2 * node + 1) stored).2).2.at u := by
  rw [firstFlagged_inner cmp key repeats internal hn]
  unfold firstMatchFlagged
  split
  · rfl
  · rfl
  · split <;> exact Stored.at_put_of_ne _ hu _ _

theorem firstFlagged_frame (node : ℕ) (stored : Stored) {u : ℕ} (hu : ¬ InSubtree node u) :
    (firstFlagged cmp key repeats internal node stored).2.at u = stored.at u := by
  by_cases hl : internal ≤ node
  · rw [firstFlagged, if_pos hl]
  · rw [firstFlagged_stored cmp key repeats internal (not_le.mp hl) stored (fun h => hu (h ▸ inSubtree_refl u)),
      firstFlagged_frame (2 * node + 2) _ fun h => hu ((isChild_right node).inSubtree.trans h),
      firstFlagged_frame (2 * node + 1) _ fun h => hu ((isChild_left node).inSubtree.trans h)]
termination_by internal - node

variable {cmp key repeats internal}

theorem wins_opening [TransCmp cmp] {v : ℕ} (hv : v ≤ 2 * internal) :
    Wins cmp key internal v (opening (fun a b => (cmp a b).isLE) key internal v) := by
  have hde := @first_decided _ (fun a b => (cmp a b).isLT) key internal _ decides_isLE
  exact wins_of_outcomes hde.leaf hv fun u hu _ => hde.node u hu

theorem firstFlagged_wins [TransCmp cmp] {v : ℕ} (hv : v ≤ 2 * internal) (stored : Stored) :
    Wins cmp key internal v (firstFlagged cmp key repeats internal v stored).1.1 := by
  rw [(firstFlagged_eq cmp key repeats internal v stored).1, first_winner]
  exact wins_opening hv

theorem firstMatchFlagged_flagMatch {node : ℕ} {left right : Option ℕ × Bool} {stored : Stored}
    (hem : stored.1 node = none) (hl : ∀ i, left.1 = some i → (key i).isSome)
    (hri : ∀ i, right.1 = some i → (key i).isSome) :
    FlagMatch cmp key left right (firstMatchFlagged cmp key node left right stored).1
      ((firstMatchFlagged cmp key node left right stored).2.at node) := by
  obtain ⟨left, f⟩ := left
  obtain ⟨right, g⟩ := right
  unfold firstMatchFlagged
  cases left with
  | none =>
    rw [Stored.at, hem]
    exact .first_absent ..
  | some i =>
    cases right with
    | none =>
      rw [Stored.at, hem]
      exact .second_absent ..
    | some j =>
      obtain ⟨a, ha⟩ := Option.isSome_iff_exists.mp (hl i rfl)
      obtain ⟨b, hb⟩ := Option.isSome_iff_exists.mp (hri j rfl)
      dsimp only
      rw [compareAt_eq ha hb]
      cases hab : cmp a b with
      | lt =>
        rw [Stored.at_put_self]
        exact .first_wins f g ha hb hab
      | eq =>
        rw [Stored.at_put_self]
        exact .equal f g ha hb hab
      | gt =>
        rw [Stored.at_put_self]
        exact .second_wins f g ha hb hab

theorem firstFlagged_leaf {node : ℕ} (hl : internal ≤ node) (hn : node ≤ 2 * internal) (stored : Stored) {i : ℕ}
    (hi : (firstFlagged cmp key repeats internal node stored).1.1 = some i) :
    (firstFlagged cmp key repeats internal node stored).1.2 = true ↔ Twin cmp key repeats internal node i := by
  obtain ⟨j, rfl⟩ : ∃ j, node = internal + j := ⟨node - internal, by omega⟩
  rw [firstFlagged, if_pos hl, Nat.add_sub_cancel_left] at hi ⊢
  unfold liveFlagged at hi ⊢
  split_ifs at hi ⊢ with hkey
  injection hi with hi
  subst hi
  exact (twin_leaf j).symm

/-- The winner below a node has the right flag, and so have all losers there. -/
theorem firstFlagged_flags [TransCmp cmp] {node : ℕ} (hn : node ≤ 2 * internal) (stored : Stored)
    (hem : ∀ u, InSubtree node u → stored.1 u = none) :
    (∀ i, (firstFlagged cmp key repeats internal node stored).1.1 = some i →
        ((firstFlagged cmp key repeats internal node stored).1.2 = true ↔ Twin cmp key repeats internal node i)) ∧
      ∀ u < internal, InSubtree node u → ∀ j, (firstFlagged cmp key repeats internal node stored).2.1 u = some j →
        ∀ c, IsChild c u → InSubtree c (internal + j) →
          ((firstFlagged cmp key repeats internal node stored).2.2 u = true ↔ Twin cmp key repeats internal c j) := by
  by_cases hlea : internal ≤ node
  · exact ⟨fun i hi => firstFlagged_leaf hlea hn stored hi, fun u hu hsu => absurd hsu.le (by omega)⟩
  · have hinn := not_le.mp hlea
    have hl := isChild_left node
    have hri := isChild_right node
    have ha : ∀ {u}, InSubtree (2 * node + 1) u → ¬ InSubtree (2 * node + 2) u := hl.apart hri (by omega)
    obtain ⟨hfla, hlosers₁⟩ := @firstFlagged_flags _ (2 * node + 1) (by omega) stored
      fun u hu => hem u (hl.inSubtree.trans hu)
    have hwi := @firstFlagged_wins _ cmp key repeats internal _ (2 * node + 1) (by omega) stored
    have hfra := fun u => @firstFlagged_frame _ cmp key repeats internal (2 * node + 1) stored u
    have hs := fun u => @firstFlagged_stored _ cmp key repeats internal _ hinn stored u
    have hm := firstFlagged_inner cmp key repeats internal hinn stored
    generalize firstFlagged cmp key repeats internal (2 * node + 1) stored = left
      at hfla hlosers₁ hwi hfra hs hm
    obtain ⟨hflag₂, hlosers₂⟩ := @firstFlagged_flags _ (2 * node + 2) (by omega) left.2
      fun u hu => (congrArg Prod.fst (hfra u fun h => ha h hu)).trans (hem u (hri.inSubtree.trans hu))
    have hw := @firstFlagged_wins _ cmp key repeats internal _ (2 * node + 2) (by omega) left.2
    have hfr := fun u => @firstFlagged_frame _ cmp key repeats internal (2 * node + 2) left.2 u
    generalize firstFlagged cmp key repeats internal (2 * node + 2) left.2 = right
      at hflag₂ hlosers₂ hw hfr hs hm
    have hse : right.2.1 node = none :=
      (congrArg Prod.fst ((hfr node fun h => absurd h.le (by omega)).trans
        (hfra node fun h => absurd h.le (by omega)))).trans (hem node (inSubtree_refl node))
    have hfl := (firstMatchFlagged_flagMatch hse (fun i hi => (hwi.placed i hi).2.1)
      fun i hi => (hw.placed i hi).2.1).flags hl hri (by omega) hinn ⟨hwi, hfla⟩ ⟨hw, hflag₂⟩
    rw [← hm] at hfl
    refine ⟨hfl.1, fun u hu hsu j hj c hc hcj => ?_⟩
    rcases hsu.cases_child with rfl | ⟨e, he, heu⟩
    · exact hfl.2 j hj c hc hcj
    · have hne : u ≠ node := by
        have hle := heu.le
        unfold IsChild at he
        omega
      obtain ⟨hlo, hflag⟩ := Prod.mk.inj (hs u hne)
      rw [hlo] at hj
      rw [hflag]
      rcases he with rfl | rfl
      · obtain ⟨hke, hke'⟩ := Prod.mk.inj (hfr u (ha heu))
        rw [hke] at hj
        rw [hke']
        exact hlosers₁ u hu heu j hj c hc hcj
      · exact hlosers₂ u hu heu j hj c hc hcj
termination_by 2 * internal - node

theorem firstFlagged_flagged [TransCmp cmp] (flags : ℕ → Bool) :
    Flagged cmp key repeats internal (firstFlagged cmp key repeats internal 0 (fun _ => none, flags)).2 := by
  intro v hv j hj c hc hcj
  exact (firstFlagged_flags (Nat.zero_le _) (fun _ => none, flags) fun _ _ => rfl).2 v hv (inSubtree_zero v) j hj c hc hcj

end First

/-! ## Playing the matches of one contestant again -/

section Replay

variable {value : Option ℕ × Bool} {w : ℕ} {winner : ℕ → Option ℕ}

variable {stored : Stored}

theorem replayMatchFlagged_flagMatch [TransCmp cmp] {node : ℕ} (hl : ∀ i, stored.1 node = some i → (key i).isSome)
    (hva : ∀ i, value.1 = some i → (key i).isSome) :
    FlagMatch cmp key value (stored.at node) (replayMatchFlagged cmp key node value stored).1
      ((replayMatchFlagged cmp key node value stored).2.at node) := by
  obtain ⟨value, f⟩ := value
  unfold replayMatchFlagged
  cases hs : stored.1 node with
  | none =>
    rw [Stored.at, hs]
    exact .second_absent ..
  | some loser =>
    have hat : stored.at node = (some loser, stored.2 node) := by rw [Stored.at, hs]
    rw [hat]
    cases value with
    | none =>
      rw [Stored.at_put_self]
      exact .first_absent ..
    | some i =>
      obtain ⟨a, ha⟩ := Option.isSome_iff_exists.mp (hl loser hs)
      obtain ⟨b, hb⟩ := Option.isSome_iff_exists.mp (hva i rfl)
      dsimp only
      rw [compareAt_eq ha hb]
      cases hab : cmp a b with
      | lt =>
        rw [Stored.at_put_self]
        exact .second_wins f _ hb ha (OrientedCmp.gt_of_lt hab)
      | eq => exact hat ▸ .equal f _ hb ha (OrientedCmp.eq_symm hab)
      | gt => exact hat ▸ .first_wins f _ hb ha (OrientedCmp.lt_of_gt hab)

theorem replayMatchFlagged_frame {node u : ℕ} (hu : u ≠ node) (value : Option ℕ × Bool) (stored : Stored) :
    (replayMatchFlagged cmp key node value stored).2.at u = stored.at u := by
  unfold replayMatchFlagged
  split
  · rfl
  · exact Stored.at_put_of_ne _ hu _ _
  · split
    · rfl
    · exact Stored.at_put_of_ne _ hu _ _
    · rfl

section Path

variable [TransCmp cmp] {v : ℕ} (h : Replaying (fun a b => (cmp a b).isLT) key internal w v value.1 stored.1 winner)
  (hf : Flagged cmp key repeats internal stored)
  (hva : ∀ i, value.1 = some i → ∀ c, IsChild c v → InSubtree c (internal + w) →
    (value.2 = true ↔ Twin cmp key repeats internal c i))

include h hf hva

/-- The match at a node on the way leaves the flags right. -/
theorem Replaying.flags : Flagged cmp key repeats internal (replayMatchFlagged cmp key v value stored).2 ∧
      ∀ i, (replayMatchFlagged cmp key v value stored).1.1 = some i →
        ((replayMatchFlagged cmp key v value stored).1.2 = true ↔ Twin cmp key repeats internal v i) := by
  have hinn := h.inner
  obtain ⟨c, hc, hcw⟩ : ∃ c, IsChild c v ∧ InSubtree c (internal + w) :=
    h.below.cases_child.resolve_left (by omega)
  obtain ⟨d, hd, hcd⟩ := hc.exists_other
  -- everything below the two children is decided
  have hw : ∀ e, IsChild e v → Wins cmp key internal e (winner e) := by
    intro e he
    refine wins_of_outcomes h.leaf (by unfold IsChild at he; omega) fun u hu hs => h.node u hu fun hup => ?_
    have hle := hs.le
    have hle' := hup.le
    unfold IsChild at he
    omega
  have hx : Side cmp key repeats internal c value :=
    ⟨h.arrives c hc hcw ▸ hw c hc, fun i hi => hva i hi c hc hcw⟩
  have hlo := h.path v (inSubtree_refl v) d hd (hc.apart hd hcd hcw)
  have hdw := hw d hd
  rw [hlo] at hdw
  have hy : Side cmp key repeats internal d (stored.at v) :=
    ⟨hdw, fun j hj => hf v hinn j hj d hd (hdw.placed j hj).2.2⟩
  have hm := (replayMatchFlagged_flagMatch (h.alive v · (inSubtree_refl v)) h.value_alive).flags hc hd hcd hinn hx hy
  refine ⟨fun u hu j hj e he hej => ?_, hm.1⟩
  by_cases huv : u = v
  · subst huv
    exact hm.2 j hj e he hej
  · obtain ⟨hl, hfl⟩ := Prod.mk.inj (@replayMatchFlagged_frame _ cmp key _ _ huv value stored)
    rw [hl] at hj
    rw [hfl]
    exact hf u hu j hj e he hej

theorem Replaying.replayFlagged : Flagged cmp key repeats internal (replayFlagged cmp key v value stored).2 ∧
      ∀ i, (LoserTree.replayFlagged cmp key v value stored).1.1 = some i →
        ((LoserTree.replayFlagged cmp key v value stored).1.2 = true ↔ Twin cmp key repeats internal 0 i) := by
  induction v using Nat.strongRecOn generalizing value stored winner with
  | ind v ih =>
    obtain ⟨hfl', hvalue'⟩ := h.flags hf hva
    rw [LoserTree.replayFlagged]
    by_cases hv : v = 0
    · subst hv
      exact ⟨hfl', hvalue'⟩
    · rw [if_neg hv]
      have hn := h.next (strictWeak_isLT cmp) hv
      obtain ⟨hp, hl⟩ := replayMatchFlagged_eq cmp key v value stored
      rw [← hp, ← hl] at hn
      refine ih (parent v) (parent_lt hv) hn hfl' fun i hi c hc hcw => ?_
      rw [child_unique hc (isChild_parent hv) hcw h.below]
      exact hvalue' i hi

end Path

variable {key' : ℕ → Option α} {repeats' : ℕ → Bool}
  (hde : Decided (fun a b => (cmp a b).isLT) key internal stored.1 winner) (hro : winner 0 = some w)
  (hkey : ∀ i, i ≠ w → key' i = key i) (hr : ∀ i, i ≠ w → repeats' i = repeats i)
  (hf : Flagged cmp key repeats internal stored)

include hde hro hkey hr hf

/-- Where the overall winner is replaced, no other loser's flag is about it. -/
theorem Flagged.replace : Flagged cmp key' repeats' internal stored := by
  intro v hv j hj c hc hcj
  have hou : ¬ InSubtree c (internal + w) := by
    intro hcw
    have hw := hde.winner_path hro hcw
    have hwv := hde.winner_path hro (hc.inSubtree.trans hcw)
    obtain ⟨d, hd, hcd⟩ := hc.exists_other
    have ho := (outcome_children hc hd hcd winner).mpr (hde.node v hv)
    rw [hw, hwv, hj] at ho
    exact hc.apart hd hcd hcj
      (hde.winner_inSubtree (by unfold IsChild at hd; omega) ho.loser_of_left.symm).2.2
  have hne : ∀ k, InSubtree c (internal + k) → k ≠ w := by
    rintro k hk rfl
    exact hou hk
  rw [hf v hv j hj c hc hcj]
  unfold Twin
  rw [hr j (hne j hcj), hkey j (hne j hcj)]
  refine or_congr .rfl (exists_congr fun k => and_congr_right fun _ => and_congr_right fun _ => and_congr_right fun hk => ?_)
  rw [hkey k (hne k hk)]

/-- Playing the matches of the replaced winner again: the tournament is decided, and all flags
are right. -/
theorem Decided.propagateFlagged [TransCmp cmp] (hinte : 0 < internal) :
    let played := LoserTree.propagateFlagged cmp key' (parent (internal + w)) (liveFlagged key' repeats' w) stored
    (∃ winner', Decided (fun a b => (cmp a b).isLT) key' internal played.2.1 winner' ∧ winner' 0 = played.1.1) ∧
      Flagged cmp key' repeats' internal played.2 ∧
      ∀ i, played.1.1 = some i → (played.1.2 = true ↔ Twin cmp key' repeats' internal 0 i) := by
  rw [propagateFlagged_eq_replayFlagged]
  have hre := hde.replaying hro hinte hkey
  rw [← liveFlagged_fst key' repeats'] at hre
  obtain ⟨hp, hl⟩ :=
    replayFlagged_eq_replay cmp key' (parent (internal + w)) (liveFlagged key' repeats' w) stored
  constructor
  · rw [hp, hl]
    exact hre.replay (strictWeak_isLT cmp)
  · refine hre.replayFlagged (Flagged.replace hde hro hkey hr hf) fun i hi c hc hcw => ?_
    rw [child_unique hc (isChild_parent (by omega)) hcw (inSubtree_refl _)]
    unfold liveFlagged at hi ⊢
    split_ifs at hi ⊢
    injection hi with hi
    subst hi
    exact (twin_leaf w).symm

end Replay

end Bolt.Lib.LoserTree
