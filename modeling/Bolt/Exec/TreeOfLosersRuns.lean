import Bolt.Exec.TreeOfLosers
import Bolt.RadixSort.SpillMergeSelect

/-!
# Runs of TreeOfLosers

The tree merges its streams as long as the node numbers of all its leaves fit the index type
(`Ready`, `ReadyWithEquals`). Where they do not, the leftmost way of the recursion wraps
around to the root before it is done, and no call returns.
-/

namespace Bolt.Exec.TreeOfLosers

open Lib Lib.Sorting Lib.Merging LoserTree List
open Std (TransCmp OrientedCmp)
open RadixSort (firstStreamOf firstStreamOf_add_one)

variable {α : Type} {cmp : α → α → Ordering} {isNextEqual : List α → Bool} {tree : TreeOfLosers α}

/-! ## The recursion over the tree -/

/-- Every leaf has a node number of its own. -/
structure Fits (tree : TreeOfLosers α) : Prop where
  streams : tree.firstStream + 1 = tree.streams.length
  bits : 2 * tree.firstStream < 2 ^ tree.bits

/-- With enough fuel the recursion is the one over unwrapped node numbers. -/
theorem descend_eq {ρ σ : Type} (hf : tree.Fits) {leaf : ℕ → ρ} {play : ℕ → ρ → ρ → σ → ρ × σ} {run : ℕ → σ → ρ × σ}
    (hl : ∀ node state, tree.firstStream ≤ node → run node state = (leaf (node - tree.firstStream), state))
    (hinn : ∀ node state, node < tree.firstStream →
      run node state = play node (run (2 * node + 1) state).1 (run (2 * node + 2) (run (2 * node + 1) state).2).1
        (run (2 * node + 2) (run (2 * node + 1) state).2).2)
    (fuel : ℕ) {node : ℕ} (hn : node ≤ 2 * tree.firstStream) (hfu : tree.firstStream - node < fuel) (state : σ) :
    tree.descend leaf play fuel node state = some (run node state) := by
  have hb := hf.bits
  have hs := hf.streams
  induction fuel generalizing node state with
  | zero => omega
  | succ fuel ih =>
    by_cases hleafNode : tree.firstStream ≤ node
    · rw [descend, if_pos hleafNode, if_pos (by omega), hl node state hleafNode]
    · have hlef : leftChild tree.bits node = 2 * node + 1 := by
        rw [leftChild, Nat.mod_eq_of_lt (by omega), Nat.mul_comm]
      have hri : rightChild tree.bits node = 2 * node + 2 := by
        rw [rightChild, Nat.mod_eq_of_lt (by omega), Nat.mul_comm]
      rw [descend, if_neg hleafNode, hlef, hri, ih (by omega) (by omega) state]
      dsimp only
      rw [ih (by omega) (by omega) _, hinn node state (by omega)]

/-- Where the leaves need more node numbers than there are, the recursion from the root never
comes to an end: the last inner node on the leftmost way has the root as its right child. -/
theorem descend_diverges {ρ σ : Type} (leaf : ℕ → ρ) (play : ℕ → ρ → ρ → σ → ρ × σ)
    (hw : 2 ^ tree.bits ≤ 2 * tree.firstStream) (fuel : ℕ) {j : ℕ} (hj : j < tree.bits) (state : σ) :
    tree.descend leaf play fuel (2 ^ j - 1) state = none := by
  obtain ⟨top, hb⟩ : ∃ top, tree.bits = top + 1 := ⟨tree.bits - 1, by omega⟩
  rw [hb, Nat.pow_succ] at hw
  induction fuel generalizing j state with
  | zero => rfl
  | succ fuel ih =>
    have hp : 0 < 2 ^ j := Nat.two_pow_pos j
    have hle : 2 ^ j ≤ 2 ^ top := Nat.pow_le_pow_right (by omega) (by omega)
    rw [descend, if_neg (by omega)]
    by_cases hl : j = top
    · have hri : rightChild tree.bits (2 ^ j - 1) = 2 ^ 0 - 1 := by
        have hs : (2 ^ j - 1) * 2 + 2 = 2 ^ tree.bits := by
          rw [hl, hb, Nat.pow_succ]
          omega
        rw [rightChild, hs, Nat.mod_self]
        rfl
      cases tree.descend leaf play fuel (leftChild tree.bits (2 ^ j - 1)) state with
      | none => rfl
      | some left =>
        dsimp only
        rw [hri, ih (by omega)]
    · have hlef : leftChild tree.bits (2 ^ j - 1) = 2 ^ (j + 1) - 1 := by
        have hlt : 2 ^ (j + 1) ≤ 2 ^ tree.bits := Nat.pow_le_pow_right (by omega) (by omega)
        rw [leftChild, Nat.mod_eq_of_lt (by omega)]
        omega
      rw [hlef, ih (by omega)]

variable {fuel : ℕ}

theorem first_eq (hf : tree.Fits) (hfu : tree.firstStream < fuel) : tree.first cmp fuel 0 =
      some (LoserTree.first (fun a b => (cmp a b).isLT) tree.key tree.firstStream 0 tree.values) := by
  refine descend_eq hf (fun node state hle => ?_) (fun node state hlt => ?_) fuel (Nat.zero_le _) hfu _
  · rw [LoserTree.first, if_pos hle]
  · rw [LoserTree.first, if_neg (not_le.mpr hlt)]
    rfl

theorem firstWithEquals_eq (hf : tree.Fits) (hfu : tree.firstStream < fuel) :
    tree.firstWithEquals cmp isNextEqual fuel 0 =
      some (firstFlagged cmp tree.key (tree.nextEqual isNextEqual) tree.firstStream 0 (tree.values, tree.equals)) := by
  refine descend_eq hf (fun node state hle => ?_) (fun node state hlt => ?_) fuel (Nat.zero_le _) hfu _
  · rw [firstFlagged, if_pos hle]
  · exact firstFlagged_inner _ _ _ _ hlt state

/-! ## The stream that is returned -/

theorem key_eq_some {i : ℕ} {a : α} (h : tree.key i = some a) : ∃ rest, tree.streams[i]? = some (a :: rest) := by
  obtain ⟨stream, hs, hh⟩ := Option.bind_eq_some_iff.mp h
  obtain ⟨rest, rfl⟩ := head?_eq_some_iff.mp hh
  exact ⟨rest, hs⟩

theorem key_of_getElem? {i : ℕ} {stream : List α} (h : tree.streams[i]? = some stream) : tree.key i = stream.head? := by
  rw [key, h]
  rfl

theorem key_eq_none (h : tree.streams.flatten = []) (i : ℕ) : tree.key i = none := by
  rw [Option.eq_none_iff_forall_ne_some]
  intro a ha
  obtain ⟨rest, hre⟩ := key_eq_some ha
  have hem := flatten_eq_nil_iff.mp h _ (mem_of_getElem? hre)
  cases hem

section

variable [TransCmp cmp] (hf : tree.Fits) {values winner : ℕ → Option ℕ}
  (hde : Decided (fun a b => (cmp a b).isLT) tree.key tree.firstStream values winner)

include hf hde

theorem flatten_eq_nil_of_winner (hro : winner 0 = none) : tree.streams.flatten = [] := by
  rw [flatten_eq_nil_iff]
  intro stream hs
  obtain ⟨i, hi, hg⟩ := getElem_of_mem hs
  cases stream with
  | nil => rfl
  | cons a rest =>
    have hst := hf.streams
    have hke : tree.key i = some a := by
      rw [key, getElem?_eq_getElem hi, hg]
      rfl
    obtain ⟨j, b, hw, _⟩ := hde.winner_least (strictWeak_isLT cmp) (by omega) hke
      (inSubtree_zero _)
    rw [hro] at hw
    cases hw

theorem winner_head_least (hs : ∀ stream ∈ tree.streams, Sorted (fun a b => (cmp a b).isLT) stream) {i : ℕ}
    (hro : winner 0 = some i) :
    ∃ a rest, tree.streams[i]? = some (a :: rest) ∧ ∀ b ∈ tree.streams.flatten, (cmp b a).isLT = false := by
  have hl := strictWeak_isLT cmp
  obtain ⟨_, hkey, _⟩ := hde.winner_inSubtree (Nat.zero_le _) hro
  obtain ⟨a, ha⟩ := Option.isSome_iff_exists.mp hkey
  obtain ⟨rest, hre⟩ := key_eq_some ha
  refine ⟨a, rest, hre, fun b hb => ?_⟩
  obtain ⟨stream, hst, hb⟩ := mem_flatten.mp hb
  refine @head_least _ (fun a b => (cmp a b).isLT) hl _ hs a (fun other ho c hc => ?_) _ hst _ hb
  obtain ⟨j, hj, hg⟩ := getElem_of_mem ho
  have hstr := hf.streams
  have hke : tree.key j = some c := by
    rw [key, getElem?_eq_getElem hj, hg]
    exact hc
  obtain ⟨k, d, hw, hd, hle⟩ := hde.winner_least hl (by omega) hke (inSubtree_zero _)
  rw [hro] at hw
  injection hw with hw
  subst hw
  rw [ha] at hd
  injection hd with hd
  subst hd
  exact hle

end

/-- The tree between two calls. The stream that was returned last has been popped since, all
else stands as the last call has left it. The flags are looked at where they are used. -/
structure Ready (cmp : α → α → Ordering) (isNextEqual : List α → Bool) (withEquals : Prop) (tree : TreeOfLosers α) : Prop where
  fits : tree.Fits
  sorted : ∀ stream ∈ tree.streams, Sorted (fun a b => (cmp a b).isLT) stream
  start : tree.lastIndex = none → tree.streams.flatten ≠ [] → tree.values = fun _ => none
  standing : ∀ w, tree.lastIndex = some w → 0 < tree.firstStream ∧ ∃ key repeats winner,
    Decided (fun a b => (cmp a b).isLT) key tree.firstStream tree.values winner ∧ winner 0 = some w ∧
      (∀ i, i ≠ w → tree.key i = key i) ∧ (∀ i, i ≠ w → tree.nextEqual isNextEqual i = repeats i) ∧
      (withEquals → Flagged cmp key repeats tree.firstStream (tree.values, tree.equals))

/-- What a call leaves behind: the matches of the present heads are decided. -/
structure Played (cmp : α → α → Ordering) (isNextEqual : List α → Bool) (withEquals : Prop) (tree tree' : TreeOfLosers α)
    (index : Option ℕ) : Prop where
  same : tree' = { tree with values := tree'.values, equals := tree'.equals, lastIndex := tree'.lastIndex }
  decided : ∃ winner, Decided (fun a b => (cmp a b).isLT) tree.key tree.firstStream tree'.values winner ∧
    winner 0 = index
  flagged : withEquals →
    Flagged cmp tree.key (tree.nextEqual isNextEqual) tree.firstStream (tree'.values, tree'.equals)
  last : tree'.lastIndex = index ∧ 0 < tree.firstStream ∨ tree'.lastIndex = none ∧ tree'.values = fun _ => none

variable {withEquals : Prop} {tree' : TreeOfLosers α}

theorem Played.idle [TransCmp cmp] (hr : tree.Ready cmp isNextEqual withEquals)
    (h : Played cmp isNextEqual withEquals tree tree' none) :
    tree.streams.flatten = [] ∧ tree'.Ready cmp isNextEqual withEquals ∧ tree'.streams = tree.streams := by
  obtain ⟨winner, hde, hro⟩ := h.decided
  have hem := flatten_eq_nil_of_winner hr.fits hde hro
  have hl : tree'.lastIndex = none := h.last.elim And.left And.left
  have hs := h.same
  have hemp' : tree'.streams.flatten = [] := by
    rw [hs]
    exact hem
  refine ⟨hem, ⟨?_, ?_, fun _ hne => absurd hemp' hne, fun w hw => ?_⟩, by rw [hs]⟩
  · rw [hs]
    exact ⟨hr.fits.streams, hr.fits.bits⟩
  · rw [hs]
    exact hr.sorted
  · rw [hl] at hw
    cases hw

theorem Played.pick [TransCmp cmp] (hr : tree.Ready cmp isNextEqual withEquals) {i : ℕ}
    (h : Played cmp isNextEqual withEquals tree tree' (some i)) :
    ∃ a rest, tree.streams[i]? = some (a :: rest) ∧ (∀ b ∈ tree.streams.flatten, (cmp b a).isLT = false) ∧
      ∃ tree'', tree'.pop i = some (a, tree'') ∧ tree''.streams = tree.streams.set i rest ∧
        tree''.Ready cmp isNextEqual withEquals := by
  obtain ⟨winner, hde, hro⟩ := h.decided
  obtain ⟨a, rest, hi, hlea⟩ := winner_head_least hr.fits hde hr.sorted hro
  have hst : tree'.streams = tree.streams := by rw [h.same]
  have hb : tree'.bits = tree.bits := by rw [h.same]
  have hfi : tree'.firstStream = tree.firstStream := by rw [h.same]
  have hp : tree'.pop i = some (a, { tree' with streams := tree.streams.set i rest }) := by
    rw [pop, hst, hi]
  have ho : ∀ j, j ≠ i → (tree.streams.set i rest)[j]? = tree.streams[j]? := fun j hj =>
    getElem?_set_ne hj.symm
  refine ⟨a, rest, hi, hlea, _, hp, rfl, ⟨⟨?_, ?_⟩, fun stream hs => ?_, fun hn _ => ?_, fun w hw => ?_⟩⟩
  · rw [hfi, length_set]
    exact hr.fits.streams
  · rw [hfi, hb]
    exact hr.fits.bits
  · rcases mem_or_eq_of_mem_set hs with hm | rfl
    · exact hr.sorted stream hm
    · exact (pairwise_cons.mp (hr.sorted _ (mem_of_getElem? hi))).2
  · rcases h.last with ⟨hl, _⟩ | ⟨_, hv⟩
    · rw [hl] at hn
      cases hn
    · exact hv
  · rcases h.last with ⟨hl, hpo⟩ | ⟨hl, _⟩
    · rw [hl] at hw
      injection hw with hw
      subst hw
      rw [hfi]
      refine ⟨hpo, tree.key, tree.nextEqual isNextEqual, winner, hde, hro, fun j hj => ?_, fun j hj => ?_, h.flagged⟩
      · rw [key, key, ho j hj]
      · rw [nextEqual, nextEqual, ho j hj]
    · rw [hl] at hw
      cases hw

/-- A call that finds all streams at their end before it plays any match. -/
structure Exhausted (cmp : α → α → Ordering) (isNextEqual : List α → Bool) (withEquals : Prop) (tree tree' : TreeOfLosers α)
    (index : Option ℕ) : Prop where
  index : index = none
  empty : tree.streams.flatten = []
  ready : tree'.Ready cmp isNextEqual withEquals
  streams : tree'.streams = tree.streams

theorem Ready.exhausted (hr : tree.Ready cmp isNextEqual withEquals) (hem : tree.streams.flatten = [])
    (values : ℕ → Option ℕ) (equals : ℕ → Bool) :
    Exhausted cmp isNextEqual withEquals tree { tree with values := values, equals := equals, lastIndex := none } none where
  index := rfl
  empty := hem
  ready :=
    { fits := ⟨hr.fits.streams, hr.fits.bits⟩
      sorted := hr.sorted
      start := fun _ hne => absurd hem hne
      standing := fun w hw => by cases hw }
  streams := rfl

theorem opening_eq_none {test : α → α → Bool} {key : ℕ → Option α} (h : ∀ i, key i = none) (internal node : ℕ) :
    opening test key internal node = none := by
  rw [Option.eq_none_iff_forall_ne_some]
  intro i hi
  have ha := opening_alive test key internal node hi
  rw [h i] at ha
  cases ha

theorem decided_single (hs : tree.firstStream = 0) (less : α → α → Bool) (values : ℕ → Option ℕ) :
    Decided less tree.key tree.firstStream values fun _ => live tree.key 0 where
  leaf i hi := by
    obtain rfl : i = 0 := by omega
    rfl
  node v hv := by omega

theorem flagged_single (hs : tree.firstStream = 0) (repeats : ℕ → Bool) (stored : Stored) :
    Flagged cmp tree.key repeats tree.firstStream stored := fun v hv => by omega

theorem parentOf_eq (hf : tree.Fits) {w : ℕ} (hw : w ≤ tree.firstStream) :
    tree.parentOf w = parent (tree.firstStream + w) := by
  have hb := hf.bits
  rw [parentOf, Nat.mod_eq_of_lt (by omega)]

/-- `next` plays the matches of the tournament it left off. -/
theorem next_spec [TransCmp cmp] (hr : tree.Ready cmp isNextEqual False) (hfu : tree.firstStream < fuel) :
    ∃ index tree', tree.next cmp fuel = some (index, tree') ∧
      (Played cmp isNextEqual False tree tree' index ∨ Exhausted cmp isNextEqual False tree tree' index) := by
  have hles := strictWeak_isLT cmp
  unfold next
  cases hl : tree.lastIndex with
  | none =>
    by_cases hem : tree.streams.flatten = []
    · have hn := key_eq_none hem
      have hexh := hr.exhausted hem
      by_cases hs : tree.firstStream = 0
      · have hli : live tree.key 0 = none := by
          rw [live, hn]
          rfl
        rw [if_pos hs, hli]
        exact ⟨none, tree, rfl, .inr ⟨rfl, hem, hr, rfl⟩⟩
      · rw [if_neg hs, first_eq hr.fits hfu, Option.map_some, first_winner, opening_eq_none hn]
        exact ⟨none, _, rfl, .inr (hexh _ tree.equals)⟩
    · have hv := hr.start hl hem
      split_ifs with hs
      · exact ⟨_, tree, rfl, Or.inl ⟨rfl, ⟨_, decided_single hs _ _, rfl⟩, False.elim, Or.inr ⟨hl, hv⟩⟩⟩
      · rw [first_eq hr.fits hfu, Option.map_some, hv]
        refine ⟨_, _, rfl, .inl ⟨rfl, ⟨_, first_decided (decides_self hles), ?_⟩, False.elim,
          .inl ⟨rfl, Nat.pos_of_ne_zero hs⟩⟩⟩
        rw [first_winner]
  | some w =>
    obtain ⟨hp, key, repeats, winner, hde, hro, hke, _, _⟩ := hr.standing w hl
    have hw := (hde.winner_inSubtree (Nat.zero_le _) hro).1
    dsimp only
    rw [propagate, parentOf_eq hr.fits hw]
    exact ⟨_, _, rfl, .inl ⟨rfl, hde.propagate hles hro hp hke, False.elim, .inl ⟨rfl, hp⟩⟩⟩

/-- So does `nextWithEquals`, and its flag is that of the winner. -/
theorem nextWithEquals_spec [TransCmp cmp] (hr : tree.Ready cmp isNextEqual True) (hfu : tree.firstStream < fuel) :
    ∃ result tree', tree.nextWithEquals cmp isNextEqual fuel = some (result, tree') ∧ (∀ i, result.1 = some i →
        (result.2 = true ↔ Twin cmp tree.key (tree.nextEqual isNextEqual) tree.firstStream 0 i)) ∧
      (Played cmp isNextEqual True tree tree' result.1 ∨ Exhausted cmp isNextEqual True tree tree' result.1) := by
  unfold nextWithEquals
  cases hl : tree.lastIndex with
  | none =>
    by_cases hem : tree.streams.flatten = []
    · have hn := key_eq_none hem
      have hexh := hr.exhausted hem
      by_cases hs : tree.firstStream = 0
      · have hli : liveFlagged tree.key (tree.nextEqual isNextEqual) 0 = (none, false) := by
          rw [liveFlagged, hn]
          rfl
        rw [if_pos hs, hli]
        refine ⟨_, tree, rfl, fun i hi => ?_, .inr ⟨rfl, hem, hr, rfl⟩⟩
        cases hi
      · rw [if_neg hs, firstWithEquals_eq hr.fits hfu, Option.map_some,
          (firstFlagged_eq ..).1, first_winner, opening_eq_none hn]
        refine ⟨_, _, rfl, fun i hi => ?_, .inr ?_⟩
        · rw [(firstFlagged_eq ..).1, first_winner, opening_eq_none hn] at hi
          cases hi
        · rw [(firstFlagged_eq ..).1, first_winner, opening_eq_none hn]
          exact hexh _ _
    · have hv := hr.start hl hem
      by_cases hs : tree.firstStream = 0
      · rw [if_pos hs]
        refine ⟨_, tree, rfl, fun i hi => ?_, .inl ⟨rfl, ⟨_, decided_single hs _ _, ?_⟩,
          fun _ => flagged_single hs _ _, .inr ⟨hl, hv⟩⟩⟩
        · have ht := @twin_leaf _ cmp tree.key (tree.nextEqual isNextEqual) tree.firstStream i
          rw [liveFlagged_fst] at hi
          obtain ⟨rfl, hke⟩ := live_eq_some hi
          rw [hs] at ht ⊢
          rw [liveFlagged, if_pos hke]
          exact ht.symm
        · exact (liveFlagged_fst ..).symm
      · obtain ⟨hind, hst⟩ := firstFlagged_eq cmp tree.key (tree.nextEqual isNextEqual)
          tree.firstStream 0 (fun _ => none, tree.equals)
        have hfl := @firstFlagged_flags _ cmp tree.key (tree.nextEqual isNextEqual) tree.firstStream _ 0
          (Nat.zero_le _) (fun _ => none, tree.equals) fun _ _ => rfl
        rw [if_neg hs, firstWithEquals_eq hr.fits hfu, Option.map_some, hv]
        refine ⟨_, _, rfl, hfl.1, .inl ⟨rfl,
          ⟨opening (fun a b => (cmp a b).isLE) tree.key tree.firstStream, ?_, ?_⟩,
          fun _ => firstFlagged_flagged tree.equals, .inl ⟨rfl, Nat.pos_of_ne_zero hs⟩⟩⟩
        · rw [hst]
          exact first_decided decides_isLE
        · rw [hind, first_winner]
  | some w =>
    obtain ⟨hp, key, repeats, winner, hde, hro, hke, hre, hfla⟩ := hr.standing w hl
    have hw := (hde.winner_inSubtree (Nat.zero_le _) hro).1
    obtain ⟨hd', hfla', hflag⟩ := Decided.propagateFlagged hde hro hke hre
      (hfla trivial) hp
    dsimp only
    rw [propagateWithEquals, parentOf_eq hr.fits hw]
    exact ⟨_, _, rfl, hflag, .inl ⟨rfl, hd', fun _ => hfla', .inl ⟨rfl, hp⟩⟩⟩

/-- `isNextEqual` tells whether a stream goes on with an element equal to its head. -/
def TellsNext (cmp : α → α → Ordering) (isNextEqual : List α → Bool) : Prop :=
  ∀ a rest, isNextEqual (a :: rest) = true ↔ ∃ b, rest.head? = some b ∧ cmp a b = .eq

theorem eq_of_between [TransCmp cmp] {a b c : α} (hab : (cmp b a).isLT = false) (hb : (cmp c b).isLT = false)
    (ha : cmp a c = .eq) : cmp a b = .eq := by
  have hs : cmp b a = (cmp a b).swap := OrientedCmp.eq_swap
  rw [TransCmp.congr_left (OrientedCmp.eq_symm ha)] at hb
  rw [hs] at hab
  revert hab hb
  cases cmp a b <;> simp

/-- The flag of the overall winner: an equal element is among those that are left. -/
theorem twin_root [TransCmp cmp] (hf : tree.Fits) (hn : TellsNext cmp isNextEqual)
    (hso : ∀ stream ∈ tree.streams, Sorted (fun a b => (cmp a b).isLT) stream) {i : ℕ} {a : α} {rest : List α}
    (hi : tree.streams[i]? = some (a :: rest)) (hlea : ∀ b ∈ tree.streams.flatten, (cmp b a).isLT = false) :
    Twin cmp tree.key (tree.nextEqual isNextEqual) tree.firstStream 0 i ↔
      ∃ b ∈ (tree.streams.set i rest).flatten, cmp a b = .eq := by
  have hke : tree.key i = some a := key_of_getElem? hi
  have hl : i < tree.streams.length := (List.getElem?_eq_some_iff.mp hi).1
  have hre : tree.nextEqual isNextEqual i = isNextEqual (a :: rest) := by
    rw [nextEqual, hi]
    rfl
  -- between the head and an equal element of a stream all are equal
  have hh : ∀ stream : List α, Sorted (fun a b => (cmp a b).isLT) stream → (∀ b ∈ stream, (cmp b a).isLT = false) →
      ∀ c ∈ stream, cmp a c = .eq → ∃ b, stream.head? = some b ∧ cmp a b = .eq := by
    intro stream hs hge c hc ha
    cases stream with
    | nil => cases hc
    | cons b tail =>
      refine ⟨b, rfl, ?_⟩
      rcases mem_cons.mp hc with rfl | ht
      · exact ha
      · exact eq_of_between (hge b (mem_cons_self ..)) ((pairwise_cons.mp hs).1 c ht) ha
  unfold Twin
  rw [hre, hn]
  constructor
  · rintro (⟨b, hb, hab⟩ | ⟨j, _, hne, _, a', b, ha', hb, hab⟩)
    · refine ⟨b, mem_flatten.mpr ⟨rest, ?_, mem_of_mem_head? hb⟩, hab⟩
      exact mem_of_getElem? (getElem?_set_self hl)
    · rw [hke] at ha'
      injection ha' with ha'
      subst ha'
      obtain ⟨tail, hj⟩ := key_eq_some hb
      refine ⟨b, mem_flatten.mpr ⟨b :: tail, ?_, mem_cons_self ..⟩, hab⟩
      exact mem_of_getElem? ((getElem?_set_ne hne.symm).trans hj)
  · rintro ⟨c, hc, ha⟩
    obtain ⟨stream, hs, hc⟩ := mem_flatten.mp hc
    obtain ⟨j, hj⟩ := mem_iff_getElem?.mp hs
    by_cases hji : j = i
    · subst hji
      rw [getElem?_set_self hl] at hj
      injection hj with hj
      subst hj
      have ho := pairwise_cons.mp (hso _ (mem_of_getElem? hi))
      exact .inl (hh rest ho.2 ho.1 c hc ha)
    · rw [getElem?_set_ne (Ne.symm hji)] at hj
      have hm := mem_of_getElem? hj
      obtain ⟨b, hb, hab⟩ := hh stream (hso stream hm)
        (fun b hb => hlea b (mem_flatten.mpr ⟨stream, hm, hb⟩)) c hc ha
      have hjl := (List.getElem?_eq_some_iff.mp hj).1
      have hst := hf.streams
      exact .inr ⟨j, by omega, hji, inSubtree_zero _, a, b, hke, (key_of_getElem? hj).trans hb, hab⟩

structure ReadyWith (cmp : α → α → Ordering) (isNextEqual : List α → Bool) (withEquals : Prop) (fuel : ℕ)
    (tree : TreeOfLosers α) : Prop where
  ready : tree.Ready cmp isNextEqual withEquals
  fuel : tree.streams.length ≤ fuel

theorem ReadyWith.fuel_lt (h : tree.ReadyWith cmp isNextEqual withEquals fuel) : tree.firstStream < fuel := by
  have hs := h.ready.fits.streams
  have hfu := h.fuel
  omega

section Turn

variable {index : Option ℕ} {fuel : ℕ}

section Turn

variable [TransCmp cmp] (hr : tree.ReadyWith cmp isNextEqual withEquals fuel)
  (h : Played cmp isNextEqual withEquals tree tree' index ∨ Exhausted cmp isNextEqual withEquals tree tree' index)

include hr h

theorem turn_idle (hem : tree.streams.flatten = []) :
    index = none ∧ tree'.ReadyWith cmp isNextEqual withEquals fuel ∧ tree'.streams.flatten = [] := by
  rcases h with h | h
  · cases index with
    | none =>
      obtain ⟨_, hre', hs⟩ := h.idle hr.ready
      exact ⟨rfl, ⟨hre', hs ▸ hr.fuel⟩, hs ▸ hem⟩
    | some i =>
      obtain ⟨a, rest, hi, _⟩ := h.pick hr.ready
      have hn := flatten_eq_nil_iff.mp hem _ (mem_of_getElem? hi)
      cases hn
  · exact ⟨h.index, ⟨h.ready, h.streams ▸ hr.fuel⟩, h.streams ▸ hem⟩

theorem turn_pick (hne : tree.streams.flatten ≠ []) :
    ∃ i a rest tree'', index = some i ∧ tree.streams[i]? = some (a :: rest) ∧
      (∀ b ∈ tree.streams.flatten, (cmp b a).isLT = false) ∧ tree'.pop i = some (a, tree'') ∧
      tree''.streams = tree.streams.set i rest ∧ tree''.ReadyWith cmp isNextEqual withEquals fuel := by
  rcases h with h | h
  · cases index with
    | none => exact absurd (h.idle hr.ready).1 hne
    | some i =>
      obtain ⟨a, rest, hi, hl, tree'', hp, hs, hre'⟩ := h.pick hr.ready
      refine ⟨i, a, rest, tree'', rfl, hi, hl, hp, hs, hre', ?_⟩
      rw [hs, length_set]
      exact hr.fuel
  · exact absurd h.empty hne

end Turn

end Turn

theorem pull_idle [TransCmp cmp] (hr : tree.ReadyWith cmp isNextEqual False fuel)
    (hem : tree.streams.flatten = []) :
    ∃ tree', pull cmp fuel tree = some (none, tree') ∧ tree'.ReadyWith cmp isNextEqual False fuel ∧
      tree'.streams.flatten = [] := by
  obtain ⟨index, tree', hn, hturn⟩ := next_spec hr.ready hr.fuel_lt
  obtain ⟨rfl, hre', hem'⟩ := turn_idle hr hturn hem
  refine ⟨tree', ?_, hre', hem'⟩
  rw [pull, hn]

/-- Each pull picks a least element. -/
theorem pull_picks [TransCmp cmp] (fuel : ℕ) :
    Picks (fun a b => (cmp a b).isLT) id (fun _ _ => True) (pull cmp fuel) (ReadyWith cmp isNextEqual False fuel)
      fun tree => tree.streams.flatten where
  idle tree hr hem := by
    obtain ⟨tree', hpull, _⟩ := pull_idle hr hem
    exact ⟨tree', hpull⟩
  pick tree hr hne := by
    obtain ⟨index, tree', hn, hturn⟩ := next_spec hr.ready hr.fuel_lt
    obtain ⟨i, a, rest, tree'', rfl, hi, hl, hp, hs, hre'⟩ := turn_pick hr hturn hne
    refine ⟨a, tree'', ?_, hre', ?_, hl, trivial⟩
    · rw [pull, hn]
      dsimp only
      rw [hp]
      rfl
    · rw [hs]
      exact perm_flatten_set hi
  marked_perm _ _ _ _ _ := trivial

theorem pullWithEquals_idle [TransCmp cmp] (hr : tree.ReadyWith cmp isNextEqual True fuel)
    (hem : tree.streams.flatten = []) :
    ∃ tree', pullWithEquals cmp isNextEqual fuel tree = some (none, tree') ∧ tree'.ReadyWith cmp isNextEqual True fuel ∧
      tree'.streams.flatten = [] := by
  obtain ⟨⟨index, flag⟩, tree', hn, _, hturn⟩ := nextWithEquals_spec hr.ready hr.fuel_lt
  obtain ⟨rfl, hre', hem'⟩ := turn_idle hr hturn hem
  refine ⟨tree', ?_, hre', hem'⟩
  rw [pullWithEquals, hn]

/-- The flag is set where an equal element is to come. -/
def MarksEquals (cmp : α → α → Ordering) (pulled : α × Bool) (later : List α) : Prop :=
  pulled.2 = true ↔ ∃ b ∈ later, cmp pulled.1 b = .eq

/-- Each pull picks a least element and says whether it is repeated. -/
theorem pullWithEquals_picks [TransCmp cmp] (hnex : TellsNext cmp isNextEqual) (fuel : ℕ) :
    Picks (fun a b => (cmp a b).isLT) Prod.fst (MarksEquals cmp) (pullWithEquals cmp isNextEqual fuel)
      (ReadyWith cmp isNextEqual True fuel) fun tree => tree.streams.flatten where
  idle tree hr hem := by
    obtain ⟨tree', hpull, _⟩ := pullWithEquals_idle hr hem
    exact ⟨tree', hpull⟩
  pick tree hr hne := by
    obtain ⟨⟨index, flag⟩, tree', hn, hfl, hturn⟩ := nextWithEquals_spec hr.ready hr.fuel_lt
    obtain ⟨i, a, rest, tree'', hind, hi, hl, hpo, hs, hre'⟩ := turn_pick hr hturn hne
    subst hind
    refine ⟨(a, flag), tree'', ?_, hre', ?_, hl, ?_⟩
    · rw [pullWithEquals, hn]
      dsimp only
      rw [hpo]
      rfl
    · rw [hs]
      exact perm_flatten_set hi
    · rw [MarksEquals, hs]
      exact (hfl i rfl).trans (twin_root hr.ready.fits hnex hr.ready.sorted hi hl)
  marked_perm _ _ _ hp hmarks := hmarks.trans (exists_congr fun _ => and_congr_left fun _ => hp.mem_iff)

/-! ## From the constructor -/

theorem create_ok {bits : ℕ} {streams : List (List α)} (hp : 1 ≤ streams.length) (hlt : streams.length < 2 ^ bits - 1)
    (hl : streams.length ≤ 2 ^ 30) :
    create bits streams = .ok
      { bits := bits, streams := streams, values := fun _ => none, equals := fun _ => false, lastIndex := none,
        firstStream := firstStreamOf streams.length } := by
  rw [create, if_neg (not_not.mpr hlt), if_neg (not_not.mpr hp), if_neg (not_lt.mpr hl)]

theorem firstStreamOf_eq {numStreams : ℕ} (h : 1 ≤ numStreams) : firstStreamOf numStreams + 1 = numStreams := by
  by_cases ho : numStreams = 1
  · subst ho
    have hl : Nat.log2 1 = 0 := by decide
    simp [firstStreamOf, RadixSort.treeLevels, RadixSort.nextPowerOfTwo, hl]
  · exact firstStreamOf_add_one (by omega)

theorem create_readyWith {bits : ℕ} {streams : List (List α)} (hp : 1 ≤ streams.length)
    (hb : 2 * streams.length - 2 < 2 ^ bits)
    (hs : ∀ stream ∈ streams, Sorted (fun a b => (cmp a b).isLT) stream) :
    ReadyWith cmp isNextEqual withEquals streams.length
      { bits := bits, streams := streams, values := fun _ => none, equals := fun _ => false, lastIndex := none,
        firstStream := firstStreamOf streams.length } := by
  have hfi := firstStreamOf_eq hp
  exact ⟨⟨⟨hfi, by dsimp only; omega⟩, hs, fun _ _ => rfl, fun w hw => by cases hw⟩, le_rfl⟩

end Bolt.Exec.TreeOfLosers
