import Bolt.Data.Order

/-!
# Laws of the value order

The comparison methods compute the SQL order, which is a total preorder at every type and
under every pair of flags. Away from the special floating-point values it calls two values
equal only when they are the same, where a map is its entries.
-/

namespace Bolt.Data

open Std Lib.Compare Lib.Sorting List LawfulEqOrd

/-! ## The code's comparison -/

mutual
theorem signOf_compareDatum (S : ComparisonSort) : (type : SqlType) → (flags : CompareFlags) →
    flags.equalsOnly = false → (left right : Datum type) →
    signOf (compareDatum S type flags left right) = sqlOrder S type flags left right
  | .scalar kind, flags, _, left, right => by
    rw [compareDatum, sqlOrder, signOf_directed, signOf_comparePrimitiveAsc]
    rfl
  | .string _, flags, _, left, right => by
    rw [compareDatum, sqlOrder, signOf_directed, signOf_compareStringAsc]
    rfl
  | .unknown, _, _, left, _ => nomatch left
  | .array elem, flags, hne, left, right => by
    rw [compareDatum, sqlOrder]
    exact signOf_compareArrays flags
      (signOf_compareNullable flags (signOf_compareDatum S elem flags hne)) hne left right
  | .map key value, flags, hne, left, right => by
    have hke := signOf_compareNullable flags (signOf_compareDatum S key flags hne)
    have hv := signOf_compareNullable flags (signOf_compareDatum S value flags hne)
    -- the sort test of the code is the strict part of the default key order
    have hl : ∀ entries : Entries key value, (fun i j => decide (compareNullable {}
        (compareDatum S key {}) (keyAt entries i) (keyAt entries j) < 0)) =
        fun i j => (compareOption (sqlOrder S key {}) .lt (keyAt entries i) (keyAt entries j)).isLT := by
      intro entries
      funext i j
      rw [← signOf_isLT, signOf_compareNullable {} (signOf_compareDatum S key {} rfl)]
      rfl
    rw [compareDatum, sqlOrder, hne]
    simp only [Bool.false_and, Bool.false_eq_true, if_false]
    rw [signOf_ite_ne_zero, signOf_compareArrays flags hke hne, signOf_compareArrays flags hv hne]
    simp only [sortedKeyIndices, keyOrder, hl]
  | .row children, flags, hne, left, right => by
    exact signOf_compareFields S children flags hne left right
  | .function, _, _, left, _ => nomatch left
theorem signOf_compareFields (S : ComparisonSort) : (types : List SqlType) → (flags : CompareFlags) →
    flags.equalsOnly = false → (left right : Fields types) →
    signOf (compareFields S types flags left right) = sqlOrderFields S types flags left right
  | [], _, _, _, _ => by rw [compareFields, sqlOrderFields, signOf_zero]
  | type :: types, flags, hne, (left, lefts), (right, rights) => by
    rw [compareFields, sqlOrderFields, signOf_ite_ne_zero, signOf_compareFields S types flags hne,
      signOf_compareNullable flags (signOf_compareDatum S type flags hne)]
end

theorem signOf_compareValue (S : ComparisonSort) (type : SqlType) (flags : CompareFlags)
    (hne : flags.equalsOnly = false) (left right : Value type) :
    signOf (compareValue S type flags left right) = sqlOrderValue S type flags left right :=
  signOf_compareNullable flags (signOf_compareDatum S type flags hne) left right

/-! ## The order is a total preorder -/

private theorem transCmp_comap {α β : Type} {cmp : β → β → Ordering} (h : TransCmp cmp) (f : α → β) :
    TransCmp (fun a b => cmp (f a) (f b)) :=
  { eq_swap := OrientedCmp.eq_swap, isLE_trans := TransCmp.isLE_trans }

private theorem transCmp_floating (f : Lib.Ieee.Format) (w : ℕ) (hw : 2 ^ w = 2 * f.sign) :
    TransCmp (fun a b : BitVec w => f.compareValues a.toNat b.toNat) := by
  have heq : (fun a b : BitVec w => f.compareValues a.toNat b.toNat) = fun a b =>
      compare (f.normalizeKey (f.sortKey a.toNat)) (f.normalizeKey (f.sortKey b.toNat)) := by
    funext a b
    exact (f.compare_normalizeKey (hw ▸ a.isLt) (hw ▸ b.isLt)).symm
  rw [heq]
  exact transCmp_comap inferInstance _

private theorem transCmp_signed (w : ℕ) : TransCmp (fun a b : BitVec w => compare a.toInt b.toInt) :=
  transCmp_comap (inferInstance : TransCmp compare) BitVec.toInt

theorem transCmp_scalarOrder (kind : ScalarKind) : TransCmp kind.order := by
  cases kind with
  | boolean => exact inferInstanceAs (TransCmp (compare))
  | tinyint => exact transCmp_signed 8
  | smallint => exact transCmp_signed 16
  | integer => exact transCmp_signed 32
  | bigint => exact transCmp_signed 64
  | hugeint => exact transCmp_signed 128
  | real => exact transCmp_floating binary32 32 rfl
  | double => exact transCmp_floating binary64 64 rfl
  | timestamp =>
    have hp := transCmp_comparePair (compare (α := Int)) (compare (α := ℕ))
    exact transCmp_comap hp fun time : Timestamp => (time.seconds.toInt, time.nanos.toNat)

mutual
theorem transCmp_sqlOrder (S : ComparisonSort) : (type : SqlType) → (flags : CompareFlags) →
    TransCmp (sqlOrder S type flags)
  | .scalar kind, flags => by
    have := transCmp_scalarOrder kind
    have heq : sqlOrder S (.scalar kind) flags = directed flags.ascending kind.order := by
      funext a b
      rw [sqlOrder]
    exact transCmp_directed _ flags.ascending
  | .string kind, flags => by
    have heq : sqlOrder S (.string kind) flags = directed flags.ascending (compare) := by
      funext a b
      rw [sqlOrder]
    exact transCmp_directed _ flags.ascending
  | .unknown, _ => { eq_swap := fun {a} => (nomatch a), isLE_trans := fun {a} => (nomatch a) }
  | .array elem, flags => by
    have := transCmp_sqlOrder S elem flags
    have := transCmp_compareOption (sqlOrder S elem flags) _ flags.nullOrder_ne_eq
    have heq : sqlOrder S (.array elem) flags =
        compareSeq (compareOption (sqlOrder S elem flags) flags.nullOrder) flags.shorterOrder := by
      funext a b
      rw [sqlOrder]
    exact transCmp_compareSeq _ _ flags.shorterOrder_ne_eq
  | .map key value, flags => by
    have := transCmp_sqlOrder S key flags
    have := transCmp_sqlOrder S value flags
    have := transCmp_compareOption (sqlOrder S key flags) _ flags.nullOrder_ne_eq
    have := transCmp_compareOption (sqlOrder S value flags) _ flags.nullOrder_ne_eq
    have hke := transCmp_compareSeq (compareOption (sqlOrder S key flags) flags.nullOrder) _
      flags.shorterOrder_ne_eq
    have hv := transCmp_compareSeq (compareOption (sqlOrder S value flags) flags.nullOrder) _
      flags.shorterOrder_ne_eq
    have hp := transCmp_comparePair
      (compareSeq (compareOption (sqlOrder S key flags) flags.nullOrder) flags.shorterOrder)
      (compareSeq (compareOption (sqlOrder S value flags) flags.nullOrder) flags.shorterOrder)
    exact transCmp_comap hp (fun entries : Entries key value =>
      ((keyOrder S (compareOption (sqlOrder S key {}) .lt) entries).map (keyAt entries),
        (keyOrder S (compareOption (sqlOrder S key {}) .lt) entries).map (valueAt entries)))
  | .row children, flags => by
    have heq : sqlOrder S (.row children) flags = sqlOrderFields S children flags := by
      funext a b
      rw [sqlOrder]
    exact transCmp_sqlOrderFields S children flags
  | .function, _ => { eq_swap := fun {a} => (nomatch a), isLE_trans := fun {a} => (nomatch a) }
theorem transCmp_sqlOrderFields (S : ComparisonSort) : (types : List SqlType) → (flags : CompareFlags) →
    TransCmp (sqlOrderFields S types flags)
  | [], _ => { eq_swap := rfl, isLE_trans := fun _ _ => rfl }
  | type :: types, flags => by
    have := transCmp_sqlOrder S type flags
    have := transCmp_compareOption (sqlOrder S type flags) _ flags.nullOrder_ne_eq
    have := transCmp_sqlOrderFields S types flags
    have heq : sqlOrderFields S (type :: types) flags =
        comparePair (compareOption (sqlOrder S type flags) flags.nullOrder) (sqlOrderFields S types flags) := by
      funext a b
      rfl
    exact transCmp_comparePair _ _
end

theorem transCmp_sqlOrderValue (S : ComparisonSort) (type : SqlType) (flags : CompareFlags) :
    TransCmp (sqlOrderValue S type flags) := by
  have := transCmp_sqlOrder S type flags
  exact transCmp_compareOption _ _ flags.nullOrder_ne_eq

section KeyOrder

variable {key value : SqlType} (S : ComparisonSort) (entries : Entries key value)

theorem strictWeakOrder_keys : StrictWeakOrder (fun i j =>
    (sqlOrderValue S key {} (keyAt entries i) (keyAt entries j)).isLT) := by
  have := transCmp_sqlOrderValue S key {}
  exact (strictWeak_isLT (sqlOrderValue S key {})).comap (keyAt entries)

theorem keyOrder_perm : (keyOrder S (sqlOrderValue S key {}) entries).Perm (range entries.length) :=
  S.perm _ _ (strictWeakOrder_keys S entries)

def sortedEntries : Entries key value :=
  (keyOrder S (sqlOrderValue S key {}) entries).map fun index => (keyAt entries index, valueAt entries index)

theorem sortedEntries_perm : (sortedEntries S entries).Perm entries := by
  have hs : (range entries.length).map (fun index => (keyAt entries index, valueAt entries index)) =
      entries := by
    apply ext_getElem (by simp)
    intro i h₁ h₂
    simp [keyAt, valueAt, h₂]
  have hm := (keyOrder_perm S entries).map fun index => (keyAt entries index, valueAt entries index)
  rwa [hs] at hm

theorem entry_mem {index : ℕ} (h : index ∈ keyOrder S (sqlOrderValue S key {}) entries) :
    (keyAt entries index, valueAt entries index) ∈ entries :=
  (sortedEntries_perm S entries).mem_iff.mp (mem_map.mpr ⟨index, h, rfl⟩)

theorem sortedEntries_sorted : (sortedEntries S entries).Pairwise (fun x y => (sqlOrderValue S key {} x.1 y.1).isLE) := by
  have := transCmp_sqlOrderValue S key {}
  have hso := S.sorted _ (range entries.length) (strictWeakOrder_keys S entries)
  refine pairwise_map.mpr (hso.imp ?_)
  intro i j hij
  have hs : sqlOrderValue S key {} (keyAt entries j) (keyAt entries i) =
      (sqlOrderValue S key {} (keyAt entries i) (keyAt entries j)).swap := OrientedCmp.eq_swap
  beta_reduce at hij
  rw [hs] at hij
  revert hij
  cases sqlOrderValue S key {} (keyAt entries i) (keyAt entries j) <;> simp

end KeyOrder

mutual
/-- No floating-point value inside is a NaN or the negative zero. -/
def Ordinary : (type : SqlType) → Datum type → Prop
  | .scalar .real, value => binary32.Ordinary value.toNat
  | .scalar .double, value => binary64.Ordinary value.toNat
  | .scalar _, _ => True
  | .string _, _ => True
  | .unknown, _ => True
  | .array element, values => ∀ value ∈ values, ∀ datum, value = some datum → Ordinary element datum
  | .map key value, (entries : Entries key value) => ∀ entry ∈ entries,
    (∀ datum, entry.1 = some datum → Ordinary key datum) ∧
      (∀ datum, entry.2 = some datum → Ordinary value datum)
  | .row children, fields => OrdinaryFields children fields
  | .function, _ => True
def OrdinaryFields : (types : List SqlType) → Fields types → Prop
  | [], _ => True
  | type :: types, (value, values) =>
    (∀ datum, value = some datum → Ordinary type datum) ∧ OrdinaryFields types values
end

/-- Null matches null, and otherwise the values match. -/
def SameNullable {α : Type} (same : α → α → Prop) : Option α → Option α → Prop
  | none, none => True
  | some left, some right => same left right
  | _, _ => False

mutual
/-- The same value: equal, except that a map is the same map whatever the order in
which it lists its entries. -/
def SameDatum : (type : SqlType) → Datum type → Datum type → Prop
  | .scalar _, left, right => left = right
  | .string _, left, right => left = right
  | .unknown, _, _ => True
  | .array element, left, right => Forall₂ (SameNullable (SameDatum element)) left right
  | .map key value, (left : Entries key value), (right : Entries key value) =>
    ∃ reordered : Entries key value, reordered.Perm right ∧
      Forall₂ (fun x y => SameNullable (SameDatum key) x.1 y.1 ∧ SameNullable (SameDatum value) x.2 y.2)
        left reordered
  | .row children, left, right => SameFields children left right
  | .function, _, _ => True
def SameFields : (types : List SqlType) → Fields types → Fields types → Prop
  | [], _, _ => True
  | type :: types, (left, lefts), (right, rights) =>
    SameNullable (SameDatum type) left right ∧ SameFields types lefts rights
end

def SameValue (type : SqlType) : Value type → Value type → Prop := SameNullable (SameDatum type)

private theorem eq_of_floating (f : Lib.Ieee.Format) {w : ℕ} (hw : 2 ^ w = 2 * f.sign) {left right : BitVec w}
    (hl : f.Ordinary left.toNat) (hr : f.Ordinary right.toNat)
    (h : f.compareValues left.toNat right.toNat = .eq) : left = right := by
  have hlef : left.toNat < 2 * f.sign := hw ▸ left.isLt
  have hri : right.toNat < 2 * f.sign := hw ▸ right.isLt
  rw [← f.compare_sortKey hlef hri hl hr, Nat.compare_eq_eq] at h
  exact BitVec.eq_of_toNat_eq (f.sortKey_inj hlef hri h)

/-- Scalars that compare equal are equal, away from the special values. -/
theorem eq_of_scalarOrder {kind : ScalarKind} {left right : kind.Native}
    (hl : Ordinary (.scalar kind) left) (hr : Ordinary (.scalar kind) right)
    (h : kind.order left right = .eq) : left = right := by
  cases kind with
  | boolean => exact eq_of_compare h
  | tinyint | smallint | integer | bigint | hugeint => exact BitVec.eq_of_toInt_eq (eq_of_compare h)
  | real => exact eq_of_floating binary32 rfl hl hr h
  | double => exact eq_of_floating binary64 rfl hl hr h
  | timestamp =>
    obtain ⟨s, n⟩ := left
    obtain ⟨s', n'⟩ := right
    obtain ⟨hs, hn⟩ := Ordering.then_eq_eq.mp h
    obtain rfl : s = s' := BitVec.eq_of_toInt_eq (eq_of_compare hs)
    obtain rfl : n = n' := BitVec.eq_of_toNat_eq (eq_of_compare hn)
    rfl

private theorem sameNullable_of_eq {α : Type} {P : α → Prop} {cmp : α → α → Ordering} {same : α → α → Prop}
    {absent : Ordering} (hne : absent ≠ .eq) (h : ∀ a b, P a → P b → cmp a b = .eq → same a b)
    {x y : Option α} (hx : ∀ a, x = some a → P a) (hy : ∀ a, y = some a → P a)
    (heq : compareOption cmp absent x y = .eq) : SameNullable same x y := by
  cases x with
  | none =>
    cases y with
    | none => trivial
    | some b => exact absurd heq hne
  | some a =>
    cases y with
    | none => exact absurd (Ordering.swap_eq_eq.mp heq) hne
    | some b => exact h a b (hx a rfl) (hy b rfl) heq

private theorem forall₂_imp_of_mem {α β : Type} {R S : α → β → Prop} {l : List α} {m : List β}
    (h : ∀ a ∈ l, ∀ b ∈ m, R a b → S a b) (hR : Forall₂ R l m) : Forall₂ S l m := by
  induction hR with
  | nil => exact .nil
  | cons hab _ ih =>
    refine .cons (h _ (by simp) _ (by simp) hab) (ih ?_)
    exact fun a ha b hb => h a (by simp [ha]) b (by simp [hb])

private theorem forall₂_map_pair {ι κ α β : Type} {R : α → α → Prop} {S : β → β → Prop} {l : List ι} {m : List κ}
    {f : ι → α} {f' : ι → β} {g : κ → α} {g' : κ → β} (hR : Forall₂ R (l.map f) (m.map g))
    (hS : Forall₂ S (l.map f') (m.map g')) :
    Forall₂ (fun x y => R x.1 y.1 ∧ S x.2 y.2) (l.map fun i => (f i, f' i)) (m.map fun j => (g j, g' j)) := by
  simp only [forall₂_map_left_iff, forall₂_map_right_iff] at hR hS ⊢
  induction hR with
  | nil => exact .nil
  | cons hab _ ih =>
    cases hS with
    | cons hab' ht => exact .cons ⟨hab, hab'⟩ (ih ht)

mutual
/-- Away from the special floating-point values, values that compare equal are the
same value. -/
theorem sameDatum_of_sqlOrder (S : ComparisonSort) : (type : SqlType) → (flags : CompareFlags) →
    (left right : Datum type) → Ordinary type left → Ordinary type right →
    sqlOrder S type flags left right = .eq → SameDatum type left right
  | .scalar kind, flags, left, right, hl, hr, h => by
    rw [sqlOrder, directed_eq_eq] at h
    exact eq_of_scalarOrder hl hr h
  | .string _, flags, left, right, _, _, h => by
    rw [sqlOrder, directed_eq_eq] at h
    exact eq_of_compare h
  | .unknown, _, left, _, _, _, _ => nomatch left
  | .array elem, flags, left, right, hl, hr, h => by
    rw [sqlOrder, compareSeq_eq_eq flags.shorterOrder_ne_eq] at h
    rw [SameDatum]
    rw [Ordinary] at hl hr
    exact forall₂_imp_of_mem (fun a ha b hb => sameNullable_of_eq flags.nullOrder_ne_eq
      (sameDatum_of_sqlOrder S elem flags) (hl a ha) (hr b hb)) h
  | .map key value, flags, (left : Entries key value), (right : Entries key value), hl, hr, h => by
    rw [sqlOrder, Ordering.then_eq_eq, compareSeq_eq_eq flags.shorterOrder_ne_eq,
      compareSeq_eq_eq flags.shorterOrder_ne_eq] at h
    rw [Ordinary] at hl hr
    -- the sorted entries agree one by one, and each side's sorted entries are its entries
    have hen : Forall₂ (fun x y => SameNullable (SameDatum key) x.1 y.1 ∧
        SameNullable (SameDatum value) x.2 y.2) (sortedEntries S left) (sortedEntries S right) := by
      have hbo : Forall₂ (fun x y : Value key × Value value =>
          compareOption (sqlOrder S key flags) flags.nullOrder x.1 y.1 = .eq ∧
          compareOption (sqlOrder S value flags) flags.nullOrder x.2 y.2 = .eq)
          (sortedEntries S left) (sortedEntries S right) := forall₂_map_pair h.1 h.2
      refine forall₂_imp_of_mem ?_ hbo
      intro x hx y hy hxy
      have hx' := hl x ((sortedEntries_perm S left).mem_iff.mp hx)
      have hy' := hr y ((sortedEntries_perm S right).mem_iff.mp hy)
      exact ⟨sameNullable_of_eq flags.nullOrder_ne_eq (sameDatum_of_sqlOrder S key flags) hx'.1 hy'.1 hxy.1,
        sameNullable_of_eq flags.nullOrder_ne_eq (sameDatum_of_sqlOrder S value flags) hx'.2 hy'.2 hxy.2⟩
    obtain ⟨reordered, hs, hp⟩ := perm_comp_forall₂ (sortedEntries_perm S left).symm hen
    exact ⟨reordered, hp.trans (sortedEntries_perm S right), hs⟩
  | .row children, flags, left, right, hl, hr, h => by
    exact sameFields_of_sqlOrder S children flags left right hl hr h
  | .function, _, left, _, _, _, _ => nomatch left
theorem sameFields_of_sqlOrder (S : ComparisonSort) : (types : List SqlType) → (flags : CompareFlags) →
    (left right : Fields types) → OrdinaryFields types left → OrdinaryFields types right →
    sqlOrderFields S types flags left right = .eq → SameFields types left right
  | [], _, _, _, _, _, _ => trivial
  | type :: types, flags, (left, lefts), (right, rights), hl, hr, h => by
    rw [sqlOrderFields, Ordering.then_eq_eq] at h
    rw [OrdinaryFields] at hl hr
    rw [SameFields]
    exact ⟨sameNullable_of_eq flags.nullOrder_ne_eq (sameDatum_of_sqlOrder S type flags) hl.1 hr.1 h.1,
      sameFields_of_sqlOrder S types flags lefts rights hl.2 hr.2 h.2⟩
end

theorem sameValue_of_sqlOrderValue (S : ComparisonSort) (type : SqlType) (flags : CompareFlags)
    {left right : Value type} (hl : ∀ a, left = some a → Ordinary type a)
    (hr : ∀ a, right = some a → Ordinary type a) (h : sqlOrderValue S type flags left right = .eq) :
    SameValue type left right :=
  sameNullable_of_eq flags.nullOrder_ne_eq (sameDatum_of_sqlOrder S type flags) hl hr h

end Bolt.Data
