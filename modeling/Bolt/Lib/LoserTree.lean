import Bolt.Lib.Sorting

/-!
# Loser trees

A tournament over contestants `0 .. internal`, some of them absent, in a binary tree stored
by levels: contestant `i` stands at node `internal + i`, and each inner node keeps the loser
of its match. `Decided` relates the losers to the winners at all nodes. It leaves open which
of two equal contestants wins a match: `first` and `propagate` choose differently.
-/

namespace Bolt.Lib.LoserTree

open Sorting Function

variable {u c i : ℕ} {left right loser : Option ℕ}

def parent (node : ℕ) : ℕ := (node - 1) / 2

theorem parent_lt {node : ℕ} (h : node ≠ 0) : parent node < node := by
  unfold parent
  omega

theorem parent_le (node : ℕ) : parent node ≤ node := by
  unfold parent
  omega

/-- The way from the second node to the root passes the first. -/
def InSubtree (v u : ℕ) : Prop := ∃ k, parent^[k] u = v

theorem iterate_parent_le (k u : ℕ) : parent^[k] u ≤ u := by
  induction k with
  | zero => exact le_refl u
  | succ k ih =>
    rw [iterate_succ_apply']
    exact (parent_le _).trans ih

theorem InSubtree.le {v : ℕ} (h : InSubtree v u) : v ≤ u := by
  obtain ⟨k, rfl⟩ := h
  exact iterate_parent_le k u

theorem inSubtree_refl (v : ℕ) : InSubtree v v := ⟨0, rfl⟩

theorem InSubtree.trans {v t : ℕ} (hv : InSubtree v u) (hu : InSubtree u t) : InSubtree v t := by
  obtain ⟨k, rfl⟩ := hu
  obtain ⟨m, rfl⟩ := hv
  exact ⟨m + k, iterate_add_apply parent m k t⟩

theorem inSubtree_parent (u : ℕ) : InSubtree (parent u) u := ⟨1, rfl⟩

theorem inSubtree_zero (u : ℕ) : InSubtree 0 u := by
  induction u using Nat.strongRecOn with
  | ind u ih =>
    by_cases hu : u = 0
    · exact hu ▸ inSubtree_refl 0
    · exact (ih (parent u) (parent_lt hu)).trans (inSubtree_parent u)

theorem InSubtree.eq_or_parent {v : ℕ} (h : InSubtree v u) : v = u ∨ InSubtree v (parent u) := by
  obtain ⟨k, rfl⟩ := h
  cases k with
  | zero => exact .inl rfl
  | succ k => exact .inr ⟨k, rfl⟩

def IsChild (c v : ℕ) : Prop := c = 2 * v + 1 ∨ c = 2 * v + 2

theorem IsChild.parent_eq {v : ℕ} (h : IsChild c v) : parent c = v := by
  unfold IsChild at h
  unfold parent
  omega

theorem isChild_parent (h : c ≠ 0) : IsChild c (parent c) := by
  unfold IsChild parent
  omega

theorem IsChild.exists_other {v : ℕ} (h : IsChild c v) : ∃ d, IsChild d v ∧ c ≠ d := by
  rcases h with rfl | rfl
  · exact ⟨2 * v + 2, .inr rfl, by omega⟩
  · exact ⟨2 * v + 1, .inl rfl, by omega⟩

theorem isChild_left (v : ℕ) : IsChild (2 * v + 1) v := .inl rfl

theorem isChild_right (v : ℕ) : IsChild (2 * v + 2) v := .inr rfl

theorem IsChild.inSubtree {v : ℕ} (h : IsChild c v) : InSubtree v c := h.parent_eq ▸ inSubtree_parent c

theorem child_unique {d v : ℕ} (hc : IsChild c v) (hd : IsChild d v) (hcu : InSubtree c u) (hdu : InSubtree d u) :
    c = d := by
  induction u using Nat.strongRecOn with
  | ind u ih =>
    rcases hcu.eq_or_parent with rfl | hcp
    · rcases hdu.eq_or_parent with rfl | hdp
      · rfl
      · have hle := hdp.le
        rw [hc.parent_eq] at hle
        unfold IsChild at hd
        omega
    · rcases hdu.eq_or_parent with rfl | hdp
      · have hle := hcp.le
        rw [hd.parent_eq] at hle
        unfold IsChild at hc
        omega
      · by_cases hu : u = 0
        · subst hu
          have hle := hcu.le
          unfold IsChild at hc
          omega
        · exact ih (parent u) (parent_lt hu) hcp hdp

theorem IsChild.apart {d v : ℕ} (hc : IsChild c v) (hd : IsChild d v) (hcd : c ≠ d) (hcu : InSubtree c u) :
    ¬ InSubtree d u :=
  fun hdu => hcd (child_unique hc hd hcu hdu)

theorem InSubtree.cases_child {v : ℕ} (h : InSubtree v u) : u = v ∨ ∃ c, IsChild c v ∧ InSubtree c u := by
  induction u using Nat.strongRecOn with
  | ind u ih =>
    rcases h.eq_or_parent with rfl | hp
    · exact .inl rfl
    · by_cases hu : u = 0
      · subst hu
        exact .inl (Nat.le_zero.mp h.le).symm
      · rcases ih (parent u) (parent_lt hu) hp with heq | ⟨c, hc, hcp⟩
        · exact .inr ⟨u, heq ▸ isChild_parent hu, inSubtree_refl u⟩
        · exact .inr ⟨c, hc, hcp.trans (inSubtree_parent u)⟩

variable {α : Type} (less : α → α → Bool) (key : ℕ → Option α) (internal : ℕ)

/-- The first contestant comes before the second. -/
def beats (i j : ℕ) : Bool :=
  match key i, key j with
  | some a, some b => less a b
  | _, _ => false

def live (i : ℕ) : Option ℕ := if (key i).isSome then some i else none

/-- Plays all matches below a node and returns the winner. -/
def first (node : ℕ) (losers : ℕ → Option ℕ) : Option ℕ × (ℕ → Option ℕ) :=
  if internal ≤ node then
    (live key (node - internal), losers)
  else
    let left := first (2 * node + 1) losers
    let right := first (2 * node + 2) left.2
    match left.1, right.1 with
    | none, winner => (winner, right.2)
    | some i, none => (some i, right.2)
    | some i, some j =>
      if beats less key i j then
        (some i, update right.2 node (some j))
      else
        (some j, update right.2 node (some i))
termination_by internal - node

/-- The node itself, or the next one on the way to the root, that has a loser. -/
def skipEmpty (node : ℕ) (losers : ℕ → Option ℕ) : Option ℕ :=
  if (losers node).isSome then some node
  else if node = 0 then none
  else skipEmpty (parent node) losers
termination_by node
decreasing_by exact parent_lt (by assumption)

/-- One match against the stored loser: the winner, and the losers after it. -/
def replayMatch (node : ℕ) (value : Option ℕ) (losers : ℕ → Option ℕ) : Option ℕ × (ℕ → Option ℕ) :=
  match losers node, value with
  | none, value => (value, losers)
  | some loser, none => (some loser, update losers node none)
  | some loser, some value =>
    if beats less key loser value then
      (some loser, update losers node (some value))
    else
      (some value, losers)

/-- Plays the matches from a node to the root, against the stored losers. -/
def replay (node : ℕ) (value : Option ℕ) (losers : ℕ → Option ℕ) : Option ℕ × (ℕ → Option ℕ) :=
  let played := replayMatch less key node value losers
  if node = 0 then played else replay (parent node) played.1 played.2
termination_by node
decreasing_by exact parent_lt (by assumption)

/-- The matches from a node to the root, with the nodes without a loser skipped first. -/
def propagate (node : ℕ) (value : Option ℕ) (losers : ℕ → Option ℕ) : Option ℕ × (ℕ → Option ℕ) :=
  match skipEmpty node losers with
  | none => (value, losers)
  | some node => replay less key node value losers

/-- A node without a loser changes nothing. -/
theorem propagate_eq_replay (node : ℕ) (value : Option ℕ) (losers : ℕ → Option ℕ) :
    propagate less key node value losers = replay less key node value losers := by
  induction node using Nat.strongRecOn with
  | ind node ih =>
    unfold propagate
    rw [skipEmpty]
    by_cases hlo : (losers node).isSome
    · rw [if_pos hlo]
    · have hn : losers node = none := by simpa using hlo
      have hm : replayMatch less key node value losers = (value, losers) := by
        unfold replayMatch
        rw [hn]
      rw [if_neg hlo, replay, hm]
      by_cases hz : node = 0
      · rw [if_pos hz, if_pos hz]
      · rw [if_neg hz, if_neg hz]
        exact ih (parent node) (parent_lt hz)

/-! ## Decided tournaments -/

/-- Winner and loser of a match between two contestants, each of which may be absent. -/
inductive Outcome : Option ℕ → Option ℕ → Option ℕ → Option ℕ → Prop
  | left_absent (right : Option ℕ) : Outcome none right right none
  | right_absent (left : Option ℕ) : Outcome left none left none
  | left_wins {i j : ℕ} {a b : α} (ha : key i = some a) (hb : key j = some b) (h : less b a = false) :
    Outcome (some i) (some j) (some i) (some j)
  | right_wins {i j : ℕ} {a b : α} (ha : key i = some a) (hb : key j = some b) (h : less a b = false) :
    Outcome (some i) (some j) (some j) (some i)

/-- The losers are those of the matches between the winners. -/
structure Decided (losers winner : ℕ → Option ℕ) : Prop where
  leaf : ∀ i ≤ internal, winner (internal + i) = live key i
  node : ∀ v < internal, Outcome less key (winner (2 * v + 1)) (winner (2 * v + 2)) (winner v) (losers v)

variable {less key internal}

variable {key' : ℕ → Option α}

section

variable {winner : Option ℕ} (h : Outcome less key left right winner loser)
include h

theorem Outcome.winner_eq : winner = left ∨ winner = right := by
  cases h with
  | left_absent => exact .inr rfl
  | right_absent | left_wins => exact .inl rfl
  | right_wins => exact .inr rfl

theorem Outcome.congr (hlef : ∀ i, left = some i → key' i = key i) (hr : ∀ i, right = some i → key' i = key i) :
    Outcome less key' left right winner loser := by
  cases h with
  | left_absent => exact .left_absent _
  | right_absent => exact .right_absent _
  | left_wins ha hb h => exact .left_wins ((hlef _ rfl).trans ha) ((hr _ rfl).trans hb) h
  | right_wins ha hb h => exact .right_wins ((hlef _ rfl).trans ha) ((hr _ rfl).trans hb) h

theorem Outcome.symm : Outcome less key right left winner loser := by
  cases h with
  | left_absent => exact .right_absent _
  | right_absent => exact .left_absent _
  | left_wins ha hb h => exact .right_wins hb ha h
  | right_wins ha hb h => exact .left_wins hb ha h

end

/-- It does not matter which child is named first. -/
theorem outcome_children {v d : ℕ} (hc : IsChild c v) (hd : IsChild d v) (hcd : c ≠ d) (winners : ℕ → Option ℕ)
    {winner : Option ℕ} : Outcome less key (winners c) (winners d) winner loser ↔
      Outcome less key (winners (2 * v + 1)) (winners (2 * v + 2)) winner loser := by
  rcases hc with rfl | rfl
  · rw [hd.resolve_left hcd.symm]
  · rw [hd.resolve_right hcd.symm]
    exact ⟨.symm, .symm⟩

theorem Outcome.loser_of_left (h : Outcome less key (some i) right (some i) loser) : loser = right := by
  cases h with
  | right_absent | left_wins | right_wins => rfl

theorem live_eq_some {j : ℕ} (h : live key i = some j) : i = j ∧ (key j).isSome := by
  unfold live at h
  split_ifs at h with hke
  injection h with h
  exact ⟨h, h ▸ hke⟩

/-- Where the matches below a node are decided, no contestant there comes before the winner. -/
theorem least_below {losers winner : ℕ → Option ℕ} (hlea : ∀ i ≤ internal, winner (internal + i) = live key i) {v : ℕ}
    (hn : ∀ u < internal, InSubtree v u →
      Outcome less key (winner (2 * u + 1)) (winner (2 * u + 2)) (winner u) (losers u)) (hl : StrictWeakOrder less)
    (hi : i ≤ internal) {b : α} (hb : key i = some b) (hv : InSubtree v (internal + i)) :
    ∃ j a, winner v = some j ∧ key j = some a ∧ less b a = false := by
  -- along the way from the leaf up to the node the winner only gets better
  have hwa : ∀ c, InSubtree v c → InSubtree c (internal + i) →
      ∃ j a, winner c = some j ∧ key j = some a ∧ less b a = false := by
    rintro c hvc ⟨k, rfl⟩
    induction k with
    | zero =>
      have hs := hlea i hi
      rw [live, hb] at hs
      exact ⟨i, b, hs, hb, hl.irrefl b⟩
    | succ k ih =>
      rw [iterate_succ_apply'] at hvc ⊢
      have hbo := iterate_parent_le k (internal + i)
      obtain ⟨j, a, hw, ha, hle⟩ := ih (hvc.trans (inSubtree_parent _))
      generalize parent^[k] (internal + i) = c at hvc hw hbo
      by_cases hz : c = 0
      · subst hz
        exact ⟨j, a, hw, ha, hle⟩
      · obtain ⟨d, hd, hc⟩ := (isChild_parent hz).exists_other
        have ho := (outcome_children (isChild_parent hz) hd hc winner).mpr
          (hn (parent c) (by unfold parent; omega) hvc)
        rw [hw] at ho
        generalize winner d = right, winner (parent c) = w, losers (parent c) = l at ho
        cases ho with
        | right_absent | left_wins ha' hb' h => exact ⟨j, a, rfl, ha, hle⟩
        | @right_wins _ j' a' b' ha' hb' h =>
          rw [ha] at ha'
          injection ha' with ha'
          subst ha'
          exact ⟨j', b', rfl, hb', hl.negTrans h hle⟩
  exact hwa v (inSubtree_refl v) hv

theorem inSubtree_of_winner {losers winner : ℕ → Option ℕ} (hlea : ∀ i ≤ internal, winner (internal + i) = live key i)
    {v : ℕ} (hn : ∀ u < internal, InSubtree v u →
      Outcome less key (winner (2 * u + 1)) (winner (2 * u + 2)) (winner u) (losers u)) (hv : v ≤ 2 * internal)
    (hw : winner v = some i) :
    i ≤ internal ∧ (key i).isSome ∧ InSubtree v (internal + i) := by
  by_cases hinn : v < internal
  · obtain ⟨c, hc, heq⟩ : ∃ c, IsChild c v ∧ winner v = winner c :=
      (hn v hinn (inSubtree_refl v)).winner_eq.elim (⟨_, isChild_left v, ·⟩) (⟨_, isChild_right v, ·⟩)
    have hb : v < c ∧ c ≤ 2 * internal := by
      unfold IsChild at hc
      omega
    obtain ⟨hi, hke, hs⟩ := inSubtree_of_winner hlea (fun u hu h => hn u hu (hc.inSubtree.trans h))
      hb.2 (heq ▸ hw)
    exact ⟨hi, hke, hc.inSubtree.trans hs⟩
  · obtain ⟨j, rfl⟩ : ∃ j, v = internal + j := ⟨v - internal, by omega⟩
    rw [hlea j (by omega)] at hw
    obtain ⟨rfl, hke⟩ := live_eq_some hw
    exact ⟨by omega, hke, inSubtree_refl _⟩
termination_by 2 * internal - v

section Decided

variable {losers winner : ℕ → Option ℕ} (hde : Decided less key internal losers winner)
include hde

theorem Decided.winner_least (hl : StrictWeakOrder less) {i : ℕ} (hi : i ≤ internal) {b : α} (hb : key i = some b) {v : ℕ}
    (hv : InSubtree v (internal + i)) : ∃ j a, winner v = some j ∧ key j = some a ∧ less b a = false :=
  least_below hde.leaf (fun u hu _ => hde.node u hu) hl hi hb hv

theorem Decided.winner_inSubtree {v i : ℕ} (hv : v ≤ 2 * internal) (hw : winner v = some i) :
    i ≤ internal ∧ (key i).isSome ∧ InSubtree v (internal + i) :=
  inSubtree_of_winner hde.leaf (fun u hu _ => hde.node u hu) hv hw

/-- The overall winner has won all matches on its way. -/
theorem Decided.winner_path {w : ℕ} (hr : winner 0 = some w) {v : ℕ} (hv : InSubtree v (internal + w)) :
    winner v = some w := by
  have hw := (hde.winner_inSubtree (Nat.zero_le _) hr).1
  induction v using Nat.strongRecOn with
  | ind v ih =>
    by_cases hz : v = 0
    · exact hz ▸ hr
    · have hp := ih (parent v) (parent_lt hz) ((inSubtree_parent v).trans hv)
      have hb := hv.le
      obtain ⟨d, hd, hc⟩ := (isChild_parent hz).exists_other
      have ho := (outcome_children (isChild_parent hz) hd hc winner).mpr
        (hde.node (parent v) (by unfold parent; omega))
      rcases ho.winner_eq with heq | heq
      · exact heq.symm.trans hp
      · have hs := (hde.winner_inSubtree (by unfold IsChild parent at hd; omega) (heq.symm.trans hp)).2.2
        exact absurd hs ((isChild_parent hz).apart hd hc hv)

end Decided

/-! ## Playing all matches -/

section First

variable (less key internal)

/-- The winner that `first` finds below a node. -/
def opening (node : ℕ) : Option ℕ :=
  if internal ≤ node then
    live key (node - internal)
  else
    match opening (2 * node + 1), opening (2 * node + 2) with
    | none, winner => winner
    | some i, none => some i
    | some i, some j => if beats less key i j then some i else some j
termination_by internal - node

theorem first_winner (node : ℕ) (losers : ℕ → Option ℕ) :
    (first less key internal node losers).1 = opening less key internal node := by
  rw [first, opening]
  by_cases hlea : internal ≤ node
  · rw [if_pos hlea, if_pos hlea]
  · have hlef := first_winner (2 * node + 1) losers
    have hr := first_winner (2 * node + 2) (first less key internal (2 * node + 1) losers).2
    rw [if_neg hlea, if_neg hlea, ← hlef, ← hr]
    dsimp only
    split
    · rfl
    · rfl
    · split_ifs <;> rfl
termination_by internal - node

theorem first_losers {node : ℕ} (hn : node < internal) (losers : ℕ → Option ℕ) {u : ℕ} (hu : u ≠ node) :
    (first less key internal node losers).2 u =
      (first less key internal (2 * node + 2) (first less key internal (2 * node + 1) losers).2).2 u := by
  rw [first, if_neg (not_le.mpr hn)]
  dsimp only
  split
  · rfl
  · rfl
  · split_ifs <;> exact update_of_ne hu _ _

theorem first_frame (node : ℕ) (losers : ℕ → Option ℕ) {u : ℕ} (hu : ¬ InSubtree node u) :
    (first less key internal node losers).2 u = losers u := by
  by_cases hlea : internal ≤ node
  · rw [first, if_pos hlea]
  · rw [first_losers less key internal (not_le.mp hlea) losers (fun h => hu (h ▸ inSubtree_refl u)),
      first_frame (2 * node + 2) _ fun h => hu ((isChild_right node).inSubtree.trans h),
      first_frame (2 * node + 1) _ fun h => hu ((isChild_left node).inSubtree.trans h)]
termination_by internal - node

theorem opening_alive (node : ℕ) {i : ℕ} (h : opening less key internal node = some i) : (key i).isSome := by
  rw [opening] at h
  split_ifs at h with hlea
  · exact (live_eq_some h).2
  · split at h
    · exact opening_alive (2 * node + 2) h
    · rename_i heq _
      injection h with h
      subst h
      exact opening_alive (2 * node + 1) heq
    · rename_i heq ho
      split_ifs at h
      · injection h with h
        subst h
        exact opening_alive (2 * node + 1) heq
      · injection h with h
        subst h
        exact opening_alive (2 * node + 2) ho
termination_by internal - node

variable {less key internal}

theorem opening_inner {node : ℕ} (hn : node < internal) : opening less key internal node =
      match opening less key internal (2 * node + 1), opening less key internal (2 * node + 2) with
      | none, winner => winner
      | some i, none => some i
      | some i, some j => if beats less key i j then some i else some j := by
  rw [opening, if_neg (not_le.mpr hn)]

/-- The test decides a match: it may prefer either of two equal contestants. -/
structure Decides (less test : α → α → Bool) : Prop where
  of_true : ∀ {a b}, test a b = true → less b a = false
  of_false : ∀ {a b}, test a b = false → less a b = false

theorem decides_self (hl : StrictWeakOrder less) : Decides less less := ⟨hl.asymm, id⟩

variable {test : α → α → Bool} (hte : Decides less test)
include hte

theorem first_outcome_self {node : ℕ} (hn : node < internal) {losers : ℕ → Option ℕ} (hem : losers node = none) :
    Outcome less key (opening test key internal (2 * node + 1)) (opening test key internal (2 * node + 2))
      (opening test key internal node) ((first test key internal node losers).2 node) := by
  have hs : (first test key internal (2 * node + 2) (first test key internal (2 * node + 1) losers).2).2 node = none := by
    rw [first_frame, first_frame, hem]
    · exact fun h => absurd h.le (by omega)
    · exact fun h => absurd h.le (by omega)
  rw [first, opening_inner hn, if_neg (not_le.mpr hn)]
  dsimp only
  rw [first_winner, first_winner]
  cases hlef : opening test key internal (2 * node + 1) with
  | none =>
    rw [hs]
    exact .left_absent _
  | some i =>
    cases hr : opening test key internal (2 * node + 2) with
    | none =>
      rw [hs]
      exact .right_absent _
    | some j =>
      obtain ⟨a, ha⟩ := Option.isSome_iff_exists.mp (opening_alive test key internal _ hlef)
      obtain ⟨b, hb⟩ := Option.isSome_iff_exists.mp (opening_alive test key internal _ hr)
      have hbe : beats test key i j = test a b := by
        unfold beats
        rw [ha, hb]
      dsimp only
      rw [hbe]
      split_ifs with hab
      · dsimp only
        rw [update_self]
        exact .left_wins ha hb (hte.of_true hab)
      · dsimp only
        rw [update_self]
        exact .right_wins ha hb (hte.of_false (by simpa using hab))

theorem first_outcome (node : ℕ) (losers : ℕ → Option ℕ) (hem : ∀ u, InSubtree node u → losers u = none) {u : ℕ}
    (hu : u < internal) (hs : InSubtree node u) :
    Outcome less key (opening test key internal (2 * u + 1)) (opening test key internal (2 * u + 2))
      (opening test key internal u) ((first test key internal node losers).2 u) := by
  have hn : node < internal := hs.le.trans_lt hu
  have hlef := isChild_left node
  have hr := isChild_right node
  rcases hs.cases_child with rfl | ⟨c, hc, hcu⟩
  · exact first_outcome_self hte hu (hem u (inSubtree_refl u))
  · have hne : u ≠ node := by
      have hle := hcu.le
      unfold IsChild at hc
      omega
    rw [first_losers test key internal hn losers hne]
    rcases hc with rfl | rfl
    · rw [first_frame test key internal _ _ (hlef.apart hr (by omega) hcu)]
      exact first_outcome (2 * node + 1) losers (fun t ht => hem t (hlef.inSubtree.trans ht)) hu hcu
    · refine first_outcome (2 * node + 2) _ (fun t ht => ?_) hu hcu
      rw [first_frame test key internal _ _ (hr.apart hlef (by omega) ht)]
      exact hem t (hr.inSubtree.trans ht)
termination_by internal - node

/-- All matches are decided, and the result is the overall winner. -/
theorem first_decided :
    Decided less key internal (first test key internal 0 fun _ => none).2 (opening test key internal) where
  leaf i _ := by
    rw [opening, if_pos (Nat.le_add_right internal i), Nat.add_sub_cancel_left]
  node v hv := first_outcome hte 0 _ (fun _ _ => rfl) hv (inSubtree_zero v)

end First

/-! ## Playing the matches of one contestant again -/

section Replay

variable (less key internal)

/-- The matches of contestant `w` are to be played again from node `v` on, where it or its
conqueror below comes with `value`. All other matches are decided. -/
structure Replaying (w v : ℕ) (value : Option ℕ) (losers winner : ℕ → Option ℕ) : Prop where
  below : InSubtree v (internal + w)
  inner : v < internal
  leaf : ∀ i ≤ internal, winner (internal + i) = live key i
  node : ∀ u < internal, ¬ InSubtree u v → Outcome less key (winner (2 * u + 1)) (winner (2 * u + 2)) (winner u) (losers u)
  /-- On the way the stored loser is the winner of the other side. -/
  path : ∀ u, InSubtree u v → ∀ d, IsChild d u → ¬ InSubtree d (internal + w) → winner d = losers u
  alive : ∀ u i, InSubtree u v → losers u = some i → (key i).isSome
  arrives : ∀ c, IsChild c v → InSubtree c (internal + w) → winner c = value
  value_alive : ∀ i, value = some i → (key i).isSome

variable {less key internal} {w v : ℕ} {value : Option ℕ} {losers winner : ℕ → Option ℕ}

theorem replayMatch_frame {u : ℕ} (hu : u ≠ v) : (replayMatch less key v value losers).2 u = losers u := by
  unfold replayMatch
  split
  · rfl
  · exact update_of_ne hu _ _
  · split_ifs
    · exact update_of_ne hu _ _
    · rfl

theorem replayMatch_alive (hlo : ∀ i, losers v = some i → (key i).isSome) (hv : ∀ i, value = some i → (key i).isSome)
    {i : ℕ} (h : (replayMatch less key v value losers).1 = some i) : (key i).isSome := by
  unfold replayMatch at h
  split at h
  · exact hv i h
  · rename_i hs
    exact hlo i (h ▸ hs)
  · rename_i hs
    split_ifs at h
    · exact hlo i (h ▸ hs)
    · exact hv i (h ▸ rfl)

/-- The overall winner is replaced: all but its own matches are decided. -/
theorem Decided.replaying (hde : Decided less key internal losers winner) (hr : winner 0 = some w)
    (hinte : 0 < internal) (hke : ∀ i, i ≠ w → key' i = key i) :
    Replaying less key' internal w (parent (internal + w)) (live key' w) losers
      (update winner (internal + w) (live key' w)) := by
  have hw := (hde.winner_inSubtree (Nat.zero_le _) hr).1
  have hli : ∀ u ≤ 2 * internal, ¬ InSubtree u (internal + w) → ∀ i, winner u = some i → key' i = key i := by
    intro u hu ho i hi
    refine hke i ?_
    rintro rfl
    exact ho (hde.winner_inSubtree hu hi).2.2
  have hch : ∀ u, ¬ InSubtree u (parent (internal + w)) → ∀ c, IsChild c u → ¬ InSubtree c (internal + w) := by
    intro u hu c hc hcw
    rcases hcw.eq_or_parent with rfl | hp
    · exact hu (hc.parent_eq ▸ inSubtree_refl u)
    · exact hu (hc.inSubtree.trans hp)
  have hwa : ∀ u, InSubtree u (parent (internal + w)) → ∃ c, IsChild c u ∧ InSubtree c (internal + w) := by
    intro u hu
    have hlt := parent_lt (show internal + w ≠ 0 by omega)
    have hle := hu.le
    exact (hu.trans (inSubtree_parent _)).cases_child.resolve_left (by omega)
  have hoth : ∀ u, InSubtree u (parent (internal + w)) → ∀ d, IsChild d u → ¬ InSubtree d (internal + w) →
      winner d = losers u := by
    intro u hu d hd ho
    obtain ⟨c, hc, hcw⟩ := hwa u hu
    have hc' := hde.winner_path hr hcw
    have hu' := hde.winner_path hr (hu.trans (inSubtree_parent _))
    have hou := hde.node u (by have hle := hu.le; unfold parent at hle; omega)
    rw [← outcome_children hc hd (fun h => ho (h ▸ hcw)) winner, hc', hu'] at hou
    exact hou.loser_of_left.symm
  refine ⟨inSubtree_parent _, ?_, ?_, ?_, ?_, ?_, ?_, ?_⟩
  · unfold parent
    omega
  · intro i hi
    by_cases hiw : i = w
    · subst hiw
      rw [update_self]
    · rw [update_of_ne (by omega), hde.leaf i hi]
      unfold live
      rw [hke i hiw]
  · intro u hu ho
    have hlef := hch u ho _ (isChild_left u)
    have hri := hch u ho _ (isChild_right u)
    have hleft' : 2 * u + 1 ≠ internal + w := fun h => hlef (h ▸ inSubtree_refl _)
    have hrig' : 2 * u + 2 ≠ internal + w := fun h => hri (h ▸ inSubtree_refl _)
    rw [update_of_ne hleft', update_of_ne hrig', update_of_ne (by omega)]
    exact (hde.node u hu).congr (hli _ (by omega) hlef) (hli _ (by omega) hri)
  · intro u hu d hd ho
    have hne : d ≠ internal + w := fun h => ho (h ▸ inSubtree_refl _)
    rw [update_of_ne hne]
    exact hoth u hu d hd ho
  · intro u i hu hi
    obtain ⟨c, hc, hcw⟩ := hwa u hu
    obtain ⟨d, hd, hcd⟩ := hc.exists_other
    have ho := hc.apart hd hcd hcw
    rw [← hoth u hu d hd ho] at hi
    have hb : d ≤ 2 * internal := by
      have hle := hu.le
      unfold parent at hle
      unfold IsChild at hd
      omega
    rw [hli d hb ho i hi]
    exact (hde.winner_inSubtree hb hi).2.1
  · intro c hc hcw
    rw [child_unique hc (isChild_parent (by omega)) hcw (inSubtree_refl _), update_self]
  · intro i hi
    exact (live_eq_some hi).2

variable (hl : StrictWeakOrder less) (h : Replaying less key internal w v value losers winner)

include h in
theorem Replaying.winner_update {u : ℕ} {value' : Option ℕ} (hu : ¬ InSubtree u (parent v)) {c : ℕ} (hc : IsChild c u) :
    update winner v value' c = winner c := by
  refine update_of_ne ?_ _ _
  rintro rfl
  exact hu (hc.parent_eq ▸ inSubtree_refl u)

include hl

theorem replayMatch_outcome (hlo : ∀ i, losers v = some i → (key i).isSome)
    (hv : ∀ i, value = some i → (key i).isSome) :
    Outcome less key value (losers v) (replayMatch less key v value losers).1
      ((replayMatch less key v value losers).2 v) := by
  unfold replayMatch
  cases hs : losers v with
  | none =>
    dsimp only
    rw [hs]
    exact .right_absent _
  | some loser =>
    cases value with
    | none =>
      dsimp only
      rw [update_self]
      exact .left_absent _
    | some i =>
      obtain ⟨a, ha⟩ := Option.isSome_iff_exists.mp (hlo loser hs)
      obtain ⟨b, hb⟩ := Option.isSome_iff_exists.mp (hv i rfl)
      have hbe : beats less key loser i = less a b := by
        unfold beats
        rw [ha, hb]
      dsimp only
      rw [hbe]
      by_cases hab : less a b = true
      · rw [if_pos hab]
        dsimp only
        rw [update_self]
        exact .right_wins hb ha (hl.asymm hab)
      · have hab : less a b = false := by simpa using hab
        rw [if_neg (by simp [hab])]
        dsimp only
        rw [hs]
        exact .left_wins hb ha hab

include h in
theorem Replaying.outcome :
    Outcome less key (winner (2 * v + 1)) (winner (2 * v + 2)) (replayMatch less key v value losers).1
      ((replayMatch less key v value losers).2 v) := by
  have hm := replayMatch_outcome hl (h.alive v · (inSubtree_refl v)) h.value_alive
  have hinn := h.inner
  obtain ⟨c, hc, hcw⟩ : ∃ c, IsChild c v ∧ InSubtree c (internal + w) := h.below.cases_child.resolve_left (by omega)
  obtain ⟨d, hd, hcd⟩ := hc.exists_other
  rw [← outcome_children hc hd hcd winner, h.arrives c hc hcw, h.path v (inSubtree_refl v) d hd (hc.apart hd hcd hcw)]
  exact hm

theorem Replaying.decided (h : Replaying less key internal w 0 value losers winner) :
    Decided less key internal (replayMatch less key 0 value losers).2
      (update winner 0 (replayMatch less key 0 value losers).1) where
  leaf i hi := by
    have hinn := h.inner
    rw [update_of_ne (by omega), h.leaf i hi]
  node u hu := by
    rw [update_of_ne (by omega), update_of_ne (by omega)]
    by_cases hz : u = 0
    · subst hz
      exact h.outcome hl
    · rw [update_of_ne hz, replayMatch_frame hz]
      exact h.node u hu fun hs => hz (Nat.le_zero.mp hs.le)

include h in
/-- One match keeps what is known about the others. -/
theorem Replaying.next (hv : v ≠ 0) :
    Replaying less key internal w (parent v) (replayMatch less key v value losers).1 (replayMatch less key v value losers).2
      (update winner v (replayMatch less key v value losers).1) where
  below := (inSubtree_parent v).trans h.below
  inner := (parent_lt hv).trans h.inner
  leaf i hi := by
    have hinn := h.inner
    rw [update_of_ne (by omega), h.leaf i hi]
  node u hu hs := by
    rw [h.winner_update hs (isChild_left u), h.winner_update hs (isChild_right u)]
    by_cases huv : u = v
    · subst huv
      rw [update_self]
      exact h.outcome hl
    · rw [update_of_ne huv, replayMatch_frame huv]
      exact h.node u hu fun hin => hs (hin.eq_or_parent.resolve_left huv)
  path u hs d hd ho := by
    have hle := hs.le
    have hlt := parent_lt hv
    have hdv : d ≠ v := fun heq => ho (heq ▸ h.below)
    rw [update_of_ne hdv, replayMatch_frame (by omega)]
    exact h.path u (hs.trans (inSubtree_parent v)) d hd ho
  alive u i hs hi := by
    have hle := hs.le
    have hlt := parent_lt hv
    rw [replayMatch_frame (by omega)] at hi
    exact h.alive u i (hs.trans (inSubtree_parent v)) hi
  arrives c hc hcw := by
    rw [child_unique hc (isChild_parent hv) hcw h.below, update_self]
  value_alive i hi := replayMatch_alive (h.alive v · (inSubtree_refl v)) h.value_alive hi

include h in
theorem Replaying.replay : ∃ winner', Decided less key internal (replay less key v value losers).2 winner' ∧
      winner' 0 = (LoserTree.replay less key v value losers).1 := by
  induction v using Nat.strongRecOn generalizing value losers winner with
  | ind v ih =>
    rw [LoserTree.replay]
    by_cases hv : v = 0
    · subst hv
      exact ⟨_, h.decided hl, update_self ..⟩
    · rw [if_neg hv]
      exact ih (parent v) (parent_lt hv) (h.next hl hv)

/-- Playing the matches of the replaced winner again decides the tournament. -/
theorem Decided.propagate (hde : Decided less key internal losers winner)
    (hr : winner 0 = some w) (hinte : 0 < internal) (hke : ∀ i, i ≠ w → key' i = key i) :
    ∃ winner', Decided less key' internal (propagate less key' (parent (internal + w)) (live key' w) losers).2 winner' ∧
      winner' 0 = (LoserTree.propagate less key' (parent (internal + w)) (live key' w) losers).1 := by
  rw [propagate_eq_replay]
  exact (hde.replaying hr hinte hke).replay hl

end Replay

end Bolt.Lib.LoserTree
