import Bolt.Lib.Compare

/-!
# Order codes

An order code writes values as strings over an ordered alphabet so that the lexicographic
order of the strings is the order of the values, whatever is written after them. The
continuations make the notion compose.
-/

namespace Bolt.Lib.OrderCode

open Std Compare ReflOrd List

variable {α β γ : Type*} [Ord γ]

/-- On values satisfying `P`, the code words compare as the values do, and the
text that follows them is compared only when the values are equal. -/
def OrderCodeOn (P : α → Prop) (cmp : α → α → Ordering) (enc : α → List γ) : Prop :=
  ∀ a b, P a → P b → ∀ r s, compare (enc a ++ r) (enc b ++ s) = (cmp a b).then (compare r s)

theorem compare_append_left [ReflOrd γ] (p l m : List γ) : compare (p ++ l) (p ++ m) = compare l m := by
  induction p with
  | nil => rfl
  | cons z p ih => simp [compare_self, ih]

theorem compare_append {l m : List γ} (hl : l.length = m.length) (r s : List γ) :
    compare (l ++ r) (m ++ s) = (compare l m).then (compare r s) := by
  induction l generalizing m with
  | nil => simp [eq_nil_of_length_eq_zero hl.symm]
  | cons x l ih =>
    cases m with
    | nil => cases hl
    | cons y m =>
      have ht := ih (Nat.succ.inj hl)
      simp only [List.cons_append, List.compare_cons_cons, ht, Ordering.then_assoc]

/-- The first place where two strings differ decides. -/
theorem compare_eq_lt_of_getElem? [ReflOrd γ] {l m : List γ} {offset : ℕ} {x y : γ}
    (ha : ∀ i, i < offset → l[i]? = m[i]?) (hx : l[offset]? = some x) (hy : m[offset]? = some y)
    (h : compare x y = .lt) : compare l m = .lt := by
  induction offset generalizing l m with
  | zero =>
    cases l with
    | nil => cases hx
    | cons a l =>
      cases m with
      | nil => cases hy
      | cons c m =>
        cases hx
        cases hy
        rw [List.compare_cons_cons, h]
        rfl
  | succ offset ih =>
    cases l with
    | nil => cases hx
    | cons a l =>
      cases m with
      | nil => cases hy
      | cons c m =>
        have hh : a = c := by simpa using ha 0 (Nat.succ_pos offset)
        subst hh
        rw [List.compare_cons_cons, compare_self]
        exact ih (fun i hi => by simpa using ha (i + 1) (Nat.succ_lt_succ hi)) hx hy

/-- The lexicographic order compares as far as both strings reach, then the lengths. -/
theorem compare_eq_take_then (l m : List γ) :
    compare l m = (compare (l.take (min l.length m.length)) (m.take (min l.length m.length))).then
      (compare l.length m.length) := by
  induction l generalizing m with
  | nil =>
    cases m with
    | nil => rfl
    | cons y m => simp [Nat.compare_eq_ite_lt]
  | cons x l ih =>
    cases m with
    | nil => simp [Nat.compare_eq_ite_lt]
    | cons y m =>
      rw [List.compare_cons_cons, ih m, length_cons, length_cons, Nat.add_min_add_right,
        take_succ_cons, take_succ_cons, List.compare_cons_cons, Ordering.then_assoc]
      congr 2
      simp [Nat.compare_eq_ite_lt]

/-- Positions where two strings agree may be left out of their comparison. -/
theorem compare_map_filter [ReflOrd γ] {ι : Type*} {f g : ι → γ} {keep : ι → Bool} (positions : List ι)
    (h : ∀ i ∈ positions, keep i = false → f i = g i) :
    compare ((positions.filter keep).map f) ((positions.filter keep).map g) =
      compare (positions.map f) (positions.map g) := by
  induction positions with
  | nil => rfl
  | cons i positions ih =>
    have ht := ih fun j hj => h j (mem_cons_of_mem i hj)
    cases hke : keep i with
    | true => simp [hke, ht]
    | false => simp [hke, ht, h i mem_cons_self hke, compare_self]

namespace OrderCodeOn

variable {P : α → Prop} {Q : β → Prop} {cmp : α → α → Ordering} {cmp' : β → β → Ordering}
  {enc : α → List γ} {enc' : β → List γ}

section

variable (h : OrderCodeOn P cmp enc)
include h

theorem compare_eq {a b : α} (ha : P a) (hb : P b) : compare (enc a) (enc b) = cmp a b := by
  simpa using h a b ha hb [] []

theorem eq_of_enc_eq [ReflOrd γ] {a b : α} (ha : P a) (hb : P b) (heq : enc a = enc b) : cmp a b = .eq := by
  rw [← h.compare_eq ha hb, heq]
  exact compare_self

/-- No code word is a proper prefix of another. -/
theorem eq_of_isPrefix [LawfulEqOrd γ] {a b : α} (ha : P a) (hb : P b) (hp : enc a <+: enc b) : enc a = enc b := by
  obtain ⟨t, ht⟩ := hp
  have heq : (cmp a b).then (compare t []) = .eq := by
    rw [← h a b ha hb, ht, append_nil]
    exact compare_self
  have htn : t = [] := by simpa using (Ordering.then_eq_eq.mp heq).2
  rw [← ht, htn, append_nil]

/-- Two values that compare `lt` have code words that split at a first differing
letter, so that nothing written later can change the verdict. -/
theorem split_of_lt [LawfulEqOrd γ] [TransOrd γ] {a b : α} (ha : P a) (hb : P b) (hlt : cmp a b = .lt) :
    ∃ p x y u v, enc a = p ++ x :: u ∧ enc b = p ++ y :: v ∧ compare x y = .lt := by
  have hal : ∀ r s, compare (enc a ++ r) (enc b ++ s) = .lt := by
    intro r s
    rw [h a b ha hb, hlt, Ordering.lt_then]
  generalize enc a = l at hal
  generalize enc b = m at hal
  induction l generalizing m with
  | nil =>
    -- the first word is empty: continuing it with the second one refutes `lt`
    have hs := hal m []
    simp only [nil_append, append_nil] at hs
    rw [compare_self] at hs
    cases hs
  | cons x l ih =>
    cases m with
    | nil =>
      have hs := hal [] (x :: l)
      simp only [nil_append, append_nil] at hs
      rw [compare_self] at hs
      cases hs
    | cons y m =>
      cases hx : compare x y with
      | lt => exact ⟨[], x, y, l, m, rfl, rfl, hx⟩
      | gt =>
        have hba := hal [] []
        simp [hx] at hba
      | eq =>
        obtain rfl := LawfulEqOrd.eq_of_compare hx
        have ht : ∀ r s, compare (l ++ r) (m ++ s) = .lt := by
          intro r s
          have hc := hal r s
          simpa [hx] using hc
        obtain ⟨p, x', y', u, v, hl, hm, hlt⟩ := ih m ht
        exact ⟨x :: p, x', y', u, v, by rw [hl, cons_append], by rw [hm, cons_append], hlt⟩

/-- A code of images is a code of the values, for any order that agrees with the
order of the images on the values it is used for. -/
theorem comap (f : β → α) (hP : ∀ b, Q b → P (f b)) (hc : ∀ x y, Q x → Q y → cmp' x y = cmp (f x) (f y))
    (hen : ∀ b, enc' b = enc (f b)) :
    OrderCodeOn Q cmp' enc' := by
  intro x y hx hy r s
  rw [hen, hen, hc x y hx hy]
  exact h (f x) (f y) (hP x hx) (hP y hy) r s

/-- Writing one code after another compares the pair componentwise. -/
theorem pair (h' : OrderCodeOn Q cmp' enc') : OrderCodeOn (fun x : α × β => P x.1 ∧ Q x.2) (comparePair cmp cmp')
      (fun x => enc x.1 ++ enc' x.2) := by
  intro x y hx hy r s
  simp only [append_assoc, comparePair]
  rw [h x.1 y.1 hx.1 hy.1, h' x.2 y.2 hx.2 hy.2, Ordering.then_assoc]

/-- Two distinct markers in front of a present value and of a fixed filling for an
absent one compare as the markers do. -/
theorem option [ReflOrd γ] (absent present : γ) (filling : List γ) (hne : compare absent present ≠ .eq)
    (hs : compare present absent = (compare absent present).swap) :
    OrderCodeOn (fun x : Option α => ∀ a, x = some a → P a) (compareOption cmp (compare absent present))
      (fun x => match x with
        | none => absent :: filling
        | some a => present :: enc a) := by
  have ha : ∀ o : Ordering, (compare absent present).then o = compare absent present := by
    intro o
    revert hne
    cases compare absent present <;> simp
  intro x y hx hy r s
  cases x with
  | none =>
    cases y with
    | none =>
      -- equal markers and equal fillings leave the comparison to what follows
      simp [compareOption, compare_self, compare_append_left]
    | some b => simp [compareOption, ha]
  | some a =>
    cases y with
    | none =>
      have ht : ∀ o : Ordering, (compare absent present).swap.then o = (compare absent present).swap := by
        intro o
        revert hne
        cases compare absent present <;> simp
      simp [compareOption, hs, ht]
    | some b =>
      have hb := h a b (hx a rfl) (hy b rfl) r s
      simp [compareOption, compare_self, hb]

/-- Writing the elements one after the other and a delimiter at the end compares
sequences, provided every element's code opens with a letter on one fixed side of
the delimiter. -/
theorem seq [ReflOrd γ] (delimiter : γ) (shorter : Ordering) (hne : shorter ≠ .eq)
    (hh : ∀ a, ∃ x t, enc a = x :: t ∧ compare delimiter x = shorter ∧ compare x delimiter = shorter.swap) :
    OrderCodeOn (fun l : List α => ∀ a ∈ l, P a) (compareSeq cmp shorter) (fun l => l.flatMap enc ++ [delimiter]) := by
  have hab : ∀ o : Ordering, shorter.then o = shorter ∧ shorter.swap.then o = shorter.swap := by
    intro o
    revert hne
    cases shorter <;> simp
  intro l
  induction l with
  | nil =>
    intro m _ _ r s
    cases m with
    | nil => simp [compareSeq, compare_self]
    | cons b m =>
      obtain ⟨x, t, hb, hlt, -⟩ := hh b
      simp [compareSeq, hb, hlt, hab]
  | cons a l ih =>
    intro m hl hm r s
    cases m with
    | nil =>
      obtain ⟨x, t, ha, -, hgt⟩ := hh a
      simp [compareSeq, ha, hgt, hab]
    | cons b m =>
      have hhd := h a b (hl a (by simp)) (hm b (by simp))
      have ht := ih m (fun c hc => hl c (by simp [hc])) (fun c hc => hm c (by simp [hc])) r s
      simp only [flatMap_cons, append_assoc, compareSeq_cons] at ht ⊢
      rw [hhd, ht, Ordering.then_assoc]

end

end OrderCodeOn

/-- A map of letters that turns their order around. -/
def ReversesOrder (c : γ → γ) : Prop :=
  ∀ x y, compare (c x) (c y) = compare y x

/-- Turning every letter around turns the order of a code around. -/
theorem OrderCodeOn.reverse [LawfulEqOrd γ] [TransOrd γ] {P : α → Prop} {cmp : α → α → Ordering}
    {enc : α → List γ} {c : γ → γ} (h : OrderCodeOn P cmp enc) (hc : ReversesOrder c) :
    OrderCodeOn P (fun a b => (cmp a b).swap) (fun a => (enc a).map c) := by
  intro a b ha hb r s
  cases hab : cmp a b with
  | lt =>
    obtain ⟨p, x, y, u, v, hA, hB, hx⟩ := h.split_of_lt ha hb hab
    have hy : compare (c x) (c y) = .gt := by
      rw [hc x y, OrientedOrd.eq_swap, hx]
      rfl
    simp [hA, hB, compare_append_left, hy, hab]
  | gt =>
    have hba : cmp b a = .lt := by
      rw [← h.compare_eq hb ha, OrientedOrd.eq_swap, h.compare_eq ha hb, hab]
      rfl
    obtain ⟨p, x, y, u, v, hB, hA, hx⟩ := h.split_of_lt hb ha hba
    have hlt : compare (c y) (c x) = .lt := by rw [hc y x, hx]
    simp [hA, hB, compare_append_left, hlt, hab]
  | eq =>
    have heq : enc a = enc b := by
      apply LawfulEqOrd.eq_of_compare
      rw [h.compare_eq ha hb, hab]
    simp [heq, compare_append_left, hab]

end Bolt.Lib.OrderCode
