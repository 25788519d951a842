import Mathlib.Data.List.Basic
import Mathlib.Data.List.Range
import Mathlib.Order.MinMax

/-!
# Windows of a deletion vector

`DeletionVector` keeps an iterator over the deleted rows between two requests. An iterator
at the end is never moved again, and another one is moved back only for a window that
begins at or before the last deleted row that was found. Which answers are right is said
by the deleted rows and the windows alone.
-/

namespace Bolt.DeletionVectors

open List

/-- The first of the rows from `least` on, or none. -/
def First (rows : ℕ → Bool) (least : ℕ) : Option ℕ → Prop
  | none => ∀ row, rows row = true → row < least
  | some found => rows found = true ∧ least ≤ found ∧ ∀ row, rows row = true → least ≤ row → found ≤ row

/-- `roaring::Roaring` and its `const_iterator`, with their documented behaviour. An iterator
that is equal to `end()` has no current row. -/
structure Roaring where
  Bitmap : Type
  contains : Bitmap → ℕ → Bool
  contains_lt : ∀ bitmap row, contains bitmap row = true → row < 4294967296
  Iterator : Bitmap → Type
  start : (bitmap : Bitmap) → Iterator bitmap
  current : {bitmap : Bitmap} → Iterator bitmap → Option ℕ
  next : {bitmap : Bitmap} → Iterator bitmap → Iterator bitmap
  moveEqualOrLarger : {bitmap : Bitmap} → Iterator bitmap → ℕ → Iterator bitmap
  /-- `begin()` is at the least row. -/
  current_start : ∀ bitmap, First (contains bitmap) 0 (current (start bitmap))
  /-- `operator++` goes to the next larger row. -/
  current_next : ∀ {bitmap} {it : Iterator bitmap} {row : ℕ}, current it = some row →
    First (contains bitmap) (row + 1) (current (next it))
  /-- "Move the iterator to the first value >= val." -/
  current_moveEqualOrLarger : ∀ {bitmap} (it : Iterator bitmap) (row : ℕ),
    First (contains bitmap) row (current (moveEqualOrLarger it row))

structure Buffer where
  size : ℕ
  bit : ℕ → Bool

def Buffer.setBit (buf : Buffer) (index : ℕ) : Buffer := { buf with bit := fun i => decide (i = index) || buf.bit i }

structure Request where
  offset : ℕ
  length : ℕ
  buf : Option Buffer
  offset_lt : offset < 4294967296
  length_lt : length < 4294967296

/-- The end of the window, as a number. -/
def Request.stop (r : Request) : ℕ := r.offset + r.length

variable {R : Roaring} {bitmap : R.Bitmap}

structure DeletionVector (R : Roaring) (roaring : R.Bitmap) where
  bitmapIt : R.Iterator roaring
  lastValue : ℕ := 0

def DeletionVector.create (bitmap : R.Bitmap) : DeletionVector R bitmap := { bitmapIt := R.start bitmap }

/-- `bits::nbytes` takes an `int32_t` and rounds it up. If that overflows no buffer can be
allocated. -/
def nbytes (length : ℕ) : Option ℕ := if length + 7 < 2147483648 then some ((length + 7) / 8) else none

def prepareBuffer (buf : Option Buffer) (length : ℕ) : Option Buffer :=
  (nbytes length).map fun nbytes =>
    match buf with
    | none => ⟨nbytes, fun _ => false⟩
    | some buf =>
      let data i := if i < 8 * buf.size then false else buf.bit i
      -- `reallocate` clears what it adds
      if buf.size < nbytes then ⟨nbytes, fun i => if 8 * buf.size ≤ i ∧ i < 8 * nbytes then false else data i⟩
      else ⟨buf.size, data⟩

namespace DeletionVector

def prepareIterator (v : DeletionVector R bitmap) (offset : ℕ) : DeletionVector R bitmap :=
  match R.current v.bitmapIt with
  | none => v
  | some row =>
    if row < offset ∨ offset ≤ v.lastValue then { v with bitmapIt := R.moveEqualOrLarger v.bitmapIt offset } else v

/-- The rows that the loop still has to look at. -/
def rowsLeft (v : DeletionVector R bitmap) (stop : ℕ) : ℕ :=
  match R.current v.bitmapIt with
  | none => 0
  | some row => stop - row

theorem rowsLeft_next (v : DeletionVector R bitmap) {stop row : ℕ} (hrow : R.current v.bitmapIt = some row)
    (hlt : row < stop) : rowsLeft (⟨R.next v.bitmapIt, row⟩ : DeletionVector R bitmap) stop < v.rowsLeft stop := by
  have hnext := R.current_next hrow
  rw [rowsLeft, rowsLeft, hrow]
  dsimp only
  split
  · omega
  · next found hfound =>
    rw [hfound] at hnext
    have := hnext.2.1
    omega

/-- The loop of `getDeletionVector`. -/
def setBits (offset stop : ℕ) (v : DeletionVector R bitmap) (buf : Buffer) : DeletionVector R bitmap × Buffer :=
  match _h : R.current v.bitmapIt with
  | none => (v, buf)
  | some row =>
    if row < stop then setBits offset stop ⟨R.next v.bitmapIt, row⟩ (buf.setBit (row - offset)) else (v, buf)
termination_by v.rowsLeft stop
decreasing_by exact v.rowsLeft_next _h ‹_›

/-- `getDeletionVector`; no buffer is an exception, before the iterator is moved. -/
def getDeletionVector (v : DeletionVector R bitmap) (r : Request) : DeletionVector R bitmap × Option Buffer :=
  match prepareBuffer r.buf r.length with
  | none => (v, none)
  | some buf =>
    let out := (v.prepareIterator r.offset).setBits r.offset (r.stop % 4294967296) buf
    (out.1, some out.2)

def after (v : DeletionVector R bitmap) (requests : List Request) : DeletionVector R bitmap :=
  requests.foldl (fun v r => (v.getDeletionVector r).1) v

end DeletionVector

open DeletionVector

/-- The bits below the length are those of the deleted rows of the window. -/
def Exact (rows : ℕ → Bool) (r : Request) (answer : Option Buffer) : Prop :=
  ∃ buf, answer = some buf ∧ ∀ i < r.length, buf.bit i = rows (r.offset + i)

def AllExact (bitmap : R.Bitmap) (requests : List Request) : Prop :=
  ∀ before r after, requests = before ++ r :: after →
    Exact (R.contains bitmap) r (((create bitmap).after before).getDeletionVector r).2

/-! ## The windows that are answered -/

section Windows

variable (rows : ℕ → Bool)

/-- The deleted rows of a window. -/
def Request.found (r : Request) : List ℕ := (range' r.offset r.length).filter rows

/-- The last deleted row of the latest window that has one. The latest window comes first. -/
def lastFound : List Request → ℕ
  | [] => 0
  | r :: earlier => (r.found rows).getLastD (lastFound earlier)

/-- A window ended behind the row, and none since began at or before the last row found. -/
def Passed (row : ℕ) : List Request → Prop
  | [] => False
  | r :: earlier => row < r.stop ∨ Passed row earlier ∧ lastFound rows earlier < r.offset

/-- The request is answered after the earlier ones, the latest first: its length can be rounded
up, and if a deleted row lies in its window, then the window ends at a row number, each earlier
window has a deleted row behind it, and the window begins at or before the last row found, or
the row was not passed since. -/
def Answered (earlier : List Request) (r : Request) : Prop :=
  r.length + 7 < 2147483648 ∧ ∀ row ∈ r.found rows, r.stop < 4294967296 ∧
    (∀ q ∈ earlier, ∃ behind, rows behind = true ∧ q.stop ≤ behind) ∧
    (r.offset ≤ lastFound rows earlier ∨ ¬Passed rows row earlier)

variable {rows}

theorem Request.mem_found {r : Request} {row : ℕ} :
    row ∈ r.found rows ↔ rows row = true ∧ r.offset ≤ row ∧ row < r.stop := by
  rw [found, mem_filter, mem_range'_1, stop]
  tauto

/-- The last of the rows that are found is the greatest of them. -/
theorem Request.getLastD_found (r : Request) (last : ℕ) :
    r.found rows = [] ∧ (r.found rows).getLastD last = last ∨
      (r.found rows).getLastD last ∈ r.found rows ∧ ∀ row ∈ r.found rows, row ≤ (r.found rows).getLastD last := by
  have hs : (r.found rows).Pairwise (· < ·) := (pairwise_lt_range' (s := r.offset)).filter _
  generalize r.found rows = found at hs
  rcases eq_nil_or_concat' found with rfl | ⟨front, greatest, rfl⟩
  · exact .inl ⟨rfl, rfl⟩
  · have hless := (pairwise_append.mp hs).2.2
    refine .inr ?_
    simp only [getLastD_concat, mem_append, mem_singleton, or_true, true_and]
    rintro row (hrow | rfl)
    · exact (hless row hrow greatest (by simp)).le
    · exact le_rfl

end Windows

/-! ## One request -/

theorem prepareBuffer_eq (buf : Option Buffer) {length : ℕ} (hf : length + 7 < 2147483648) :
    ∃ cleared, prepareBuffer buf length = some cleared ∧ ∀ i < length, cleared.bit i = false := by
  rw [prepareBuffer, nbytes, if_pos hf]
  refine ⟨_, rfl, fun i hi => ?_⟩
  cases buf with
  | none => rfl
  | some buf =>
    dsimp only
    split_ifs <;> grind

/-- From the first row from `least` on, the loop sets the bits of the rows before `stop`, and
remembers the last of them. -/
theorem setBits_spec (offset stop : ℕ) (v : DeletionVector R bitmap) (buf : Buffer) {least : ℕ}
    (hv : First (R.contains bitmap) least (R.current v.bitmapIt)) :
    let out := v.setBits offset stop buf
    let set row := R.contains bitmap row = true ∧ least ≤ row ∧ row < stop
    First (R.contains bitmap) (max least stop) (R.current out.1.bitmapIt) ∧
      (∀ i, out.2.bit i = true ↔ buf.bit i = true ∨ ∃ row, set row ∧ i = row - offset) ∧
      ((∀ row, ¬set row) ∧ out.1.lastValue = v.lastValue ∨
        set out.1.lastValue ∧ ∀ row, set row → row ≤ out.1.lastValue) := by
  fun_induction setBits offset stop v buf generalizing least with
  | case1 v buf hnone =>
    rw [hnone] at hv
    have hno : ∀ row, ¬(R.contains bitmap row = true ∧ least ≤ row ∧ row < stop) := by
      intro row h
      have := hv row h.1
      omega
    refine ⟨?_, by simp [hno], .inl ⟨hno, rfl⟩⟩
    rw [hnone]
    exact fun row hrow => (hv row hrow).trans_le (le_max_left _ _)
  | case2 v buf row hrow hlt ih =>
    rw [hrow] at hv
    obtain ⟨hmem, hle, hleast⟩ := hv
    obtain ⟨hfirst, hbits, hlast⟩ := ih (R.current_next hrow)
    -- the rows from the current one on are this row and those behind it
    have hset : ∀ other, R.contains bitmap other = true ∧ least ≤ other ∧ other < stop ↔
        other = row ∨ R.contains bitmap other = true ∧ row + 1 ≤ other ∧ other < stop := by
      intro other
      constructor
      · rintro ⟨ho, hl, hs⟩
        have := hleast other ho hl
        rcases Nat.eq_or_lt_of_le this with rfl | h
        · exact .inl rfl
        · exact .inr ⟨ho, h, hs⟩
      · rintro (rfl | ⟨ho, hl, hs⟩)
        · exact ⟨hmem, hle, hlt⟩
        · exact ⟨ho, by omega, hs⟩
    refine ⟨?_, fun i => ?_, .inr ?_⟩
    · rwa [max_eq_right (by omega)] at hfirst ⊢
    · rw [hbits]
      simp only [Buffer.setBit, Bool.or_eq_true, decide_eq_true_eq, hset]
      grind
    · simp only [hset]
      rcases hlast with ⟨hnone, heq⟩ | ⟨hin, hmax⟩
      · rw [heq]
        exact ⟨.inl rfl, fun other ho => ho.elim Nat.le_of_eq fun h => absurd h (hnone other)⟩
      · exact ⟨.inr hin, fun other ho => ho.elim (fun h => by omega) (hmax other)⟩
  | case3 v buf row hrow hge =>
    have hno : ∀ other, ¬(R.contains bitmap other = true ∧ least ≤ other ∧ other < stop) := by
      rw [hrow] at hv
      intro other h
      have := hv.2.2 other h.1 h.2.1
      omega
    refine ⟨?_, by simp [hno], .inl ⟨hno, rfl⟩⟩
    rw [hrow] at hv ⊢
    exact ⟨hv.1, max_le hv.2.1 (not_lt.mp hge), fun other ho hle => hv.2.2 other ho ((le_max_left _ _).trans hle)⟩

/-- What the earlier requests, the latest first, have done to the iterator. -/
structure Reached (v : DeletionVector R bitmap) (earlier : List Request) : Prop where
  lastValue : v.lastValue = lastFound (R.contains bitmap) earlier
  atEnd : R.current v.bitmapIt = none →
    (∀ row, R.contains bitmap row = false) ∨ ∃ q ∈ earlier, ∀ row, R.contains bitmap row = true → row < q.stop
  atRow : ∀ row, R.current v.bitmapIt = some row → R.contains bitmap row = true ∧
    (∀ other, R.contains bitmap other = true → (other < row ↔ Passed (R.contains bitmap) other earlier)) ∧
    ∀ q ∈ earlier, ∃ behind, R.contains bitmap behind = true ∧ q.stop ≤ behind

theorem reached_create (bitmap : R.Bitmap) : Reached (create bitmap) [] where
  lastValue := rfl
  atEnd h := by
    have hfirst := R.current_start bitmap
    rw [show R.current (R.start bitmap) = none from h] at hfirst
    refine .inl fun row => ?_
    by_contra hrow
    exact absurd (hfirst row (by simpa using hrow)) (Nat.not_lt_zero row)
  atRow row h := by
    have hfirst := R.current_start bitmap
    rw [show R.current (R.start bitmap) = some row from h] at hfirst
    refine ⟨hfirst.1, fun other ho => iff_of_false ?_ id, fun _ h => absurd h not_mem_nil⟩
    exact not_lt.mpr (hfirst.2.2 other ho (Nat.zero_le _))

section Request

variable {v : DeletionVector R bitmap} {earlier : List Request} (hv : Reached v earlier) (r : Request)
include hv

/-- Where the iterator stands when the loop begins: at the first row from `least` on, which is
not before the window. The deleted rows of the window that are still ahead are those that
the earlier windows left. -/
theorem Reached.prepareIterator : ∃ least, r.offset ≤ least ∧
    First (R.contains bitmap) least (R.current (v.prepareIterator r.offset).bitmapIt) ∧
    (v.prepareIterator r.offset).lastValue = v.lastValue ∧
    (∀ row ∈ r.found (R.contains bitmap), least ≤ row ↔
      (∀ q ∈ earlier, ∃ behind, R.contains bitmap behind = true ∧ q.stop ≤ behind) ∧
        (r.offset ≤ lastFound (R.contains bitmap) earlier ∨ ¬Passed (R.contains bitmap) row earlier)) ∧
    (R.current v.bitmapIt = none ∧ R.current (v.prepareIterator r.offset).bitmapIt = none ∨
      (∃ row, R.current v.bitmapIt = some row) ∧ (least = r.offset ∨ R.contains bitmap least = true) ∧
        ∀ other, R.contains bitmap other = true → (other < max least r.stop ↔ other < r.stop ∨
          Passed (R.contains bitmap) other earlier ∧ lastFound (R.contains bitmap) earlier < r.offset)) := by
  rw [DeletionVector.prepareIterator]
  cases hc : R.current v.bitmapIt with
  | none =>
    -- at the end no row is ahead
    refine ⟨max r.offset 4294967296, le_max_left _ _, ?_, rfl, fun row hrow => ?_, .inl ⟨rfl, hc⟩⟩
    · rw [hc]
      exact fun row hrow => (R.contains_lt bitmap row hrow).trans_le (le_max_right _ _)
    · have hmem := (Request.mem_found.mp hrow).1
      have hlt := R.contains_lt bitmap row hmem
      refine iff_of_false (fun h => ?_) fun h => ?_
      · have := (le_max_right _ _).trans h
        omega
      · rcases hv.atEnd hc with hempty | ⟨q, hq, hall⟩
        · rw [hempty row] at hmem
          cases hmem
        · obtain ⟨behind, hb, hle⟩ := h.1 q hq
          have := hall behind hb
          omega
  | some row =>
    obtain ⟨hmem, hpassed, hbehind⟩ := hv.atRow row hc
    rw [hv.lastValue]
    dsimp only
    split_ifs with hmove
    · refine ⟨r.offset, le_rfl, R.current_moveEqualOrLarger _ _, hv.lastValue.symm ▸ rfl, fun other ho => ?_,
        .inr ⟨⟨row, rfl⟩, .inl rfl, fun other ho => ?_⟩⟩
      · obtain ⟨hother, hle, -⟩ := Request.mem_found.mp ho
        refine iff_of_true hle ⟨hbehind, hmove.symm.imp id fun hlt => ?_⟩
        rw [← hpassed other hother]
        omega
      · rw [max_eq_right (show r.offset ≤ r.stop from Nat.le_add_right _ _)]
        refine ⟨.inl, fun h => h.elim id fun ⟨hp, hl⟩ => ?_⟩
        have hless := (hpassed other ho).mpr hp
        have : r.offset ≤ r.stop := Nat.le_add_right _ _
        omega
    · rw [not_or, not_lt, not_le] at hmove
      refine ⟨row, hmove.1, ?_, hv.lastValue.symm ▸ rfl, fun other ho => ?_,
        .inr ⟨⟨row, rfl⟩, .inr hmem, fun other ho => ?_⟩⟩
      · rw [hc]
        exact ⟨hmem, le_rfl, fun _ _ h => h⟩
      · obtain ⟨hother, -⟩ := Request.mem_found.mp ho
        rw [and_iff_right hbehind, or_iff_right (not_le.mpr hmove.2), ← hpassed other hother, not_lt]
      · rw [← hpassed other ho, and_iff_left hmove.2, lt_max_iff, or_comm]

/-- An answer is exact just when the request is answered, and then the iterator has reached
what the request adds to the earlier ones. -/
theorem Reached.getDeletionVector :
    (Exact (R.contains bitmap) r (v.getDeletionVector r).2 ↔ Answered (R.contains bitmap) earlier r) ∧
      (Exact (R.contains bitmap) r (v.getDeletionVector r).2 → Reached (v.getDeletionVector r).1 (r :: earlier)) := by
  by_cases hl : r.length + 7 < 2147483648
  swap
  · have hno : prepareBuffer r.buf r.length = none := by
      rw [prepareBuffer, nbytes, if_neg hl]
      rfl
    rw [DeletionVector.getDeletionVector, hno]
    have hnot : ¬Exact (R.contains bitmap) r none := fun ⟨_, h, _⟩ => by cases h
    exact ⟨iff_of_false hnot fun h => hl h.1, fun h => absurd h hnot⟩
  obtain ⟨buf, hbuf, hcleared⟩ := prepareBuffer_eq r.buf hl
  obtain ⟨least, hleast, hfirst, hlastValue, hahead, hmoved⟩ := hv.prepareIterator r
  rw [DeletionVector.getDeletionVector, hbuf]
  dsimp only
  obtain ⟨hnext, hbits, hlast⟩ := setBits_spec r.offset (r.stop % 4294967296) (v.prepareIterator r.offset) buf hfirst
  generalize (v.prepareIterator r.offset).setBits r.offset (r.stop % 4294967296) buf = out at hnext hbits hlast
  have hoffset := r.offset_lt
  have hlength := r.length_lt
  have hstop : r.stop = r.offset + r.length := rfl
  -- the bits that are set are those of rows of the window
  have hset : ∀ row, R.contains bitmap row = true ∧ least ≤ row ∧ row < r.stop % 4294967296 →
      row ∈ r.found (R.contains bitmap) ∧ r.stop < 4294967296 := by
    rintro row ⟨hrow, hle, hlt⟩
    refine ⟨Request.mem_found.mpr ⟨hrow, by omega, by omega⟩, by omega⟩
  have hexact : Exact (R.contains bitmap) r (some out.2) ↔
      ∀ row ∈ r.found (R.contains bitmap), least ≤ row ∧ row < r.stop % 4294967296 := by
    constructor
    · rintro ⟨answer, heq, hall⟩ row hrow
      obtain rfl := Option.some.inj heq
      obtain ⟨hmem, hle, hlt⟩ := Request.mem_found.mp hrow
      have hbit := hall (row - r.offset) (by omega)
      rw [Nat.add_sub_cancel' hle, hmem, hbits, hcleared _ (by omega)] at hbit
      obtain h | ⟨other, ho, heq⟩ := hbit
      · cases h
      · have := (hset other ho).1
        have := Request.mem_found.mp this
        obtain rfl : other = row := by omega
        exact ho.2
    · refine fun hall => ⟨_, rfl, fun i hi => ?_⟩
      rw [Bool.eq_iff_iff, hbits, hcleared i hi]
      constructor
      · rintro (h | ⟨row, hrow, rfl⟩)
        · cases h
        · rw [Nat.add_sub_cancel' (hleast.trans hrow.2.1)]
          exact hrow.1
      · intro hrow
        obtain ⟨hge, hlt⟩ := hall (r.offset + i) (Request.mem_found.mpr ⟨hrow, by omega, by omega⟩)
        exact .inr ⟨_, ⟨hrow, hge, hlt⟩, by omega⟩
  refine ⟨hexact.trans ?_, fun h => ?_⟩
  · rw [Answered, and_iff_right hl]
    refine forall₂_congr fun row hrow => ?_
    obtain ⟨hmem, hle, hlt⟩ := Request.mem_found.mp hrow
    rw [← hahead row hrow, and_comm]
    refine and_congr_left fun _ => ?_
    omega
  rw [hexact] at h
  have hsame : ∀ row, (R.contains bitmap row = true ∧ least ≤ row ∧ row < r.stop % 4294967296) ↔
      row ∈ r.found (R.contains bitmap) :=
    fun row => ⟨fun hrow => (hset row hrow).1, fun hrow => ⟨(Request.mem_found.mp hrow).1, h row hrow⟩⟩
  refine ⟨?_, fun hend => ?_, fun row hrow => ?_⟩
  · -- the last row that was set is the greatest of the window
    rw [lastFound, ← hv.lastValue, ← hlastValue]
    simp only [hsame] at hlast
    rcases hlast with ⟨hnone, heq⟩ | ⟨hin, hmax⟩
    · rw [heq, eq_nil_iff_forall_not_mem.mpr hnone]
      rfl
    · rcases @Request.getLastD_found (R.contains bitmap) r (v.prepareIterator r.offset).lastValue with
        ⟨hempty, -⟩ | ⟨hin', hmax'⟩
      · rw [hempty] at hin
        exact absurd hin not_mem_nil
      · exact le_antisymm (hmax' _ hin) (hmax _ hin')
  · rw [hend] at hnext
    rcases hmoved with ⟨hnone, -⟩ | ⟨-, hleast', -⟩
    · rcases hv.atEnd hnone with hempty | ⟨q, hq, hall⟩
      · exact .inl hempty
      · exact .inr ⟨q, mem_cons_of_mem _ hq, hall⟩
    · -- the iterator was not behind the window, so the loop ran past its last row
      have hle : max least (r.stop % 4294967296) ≤ r.stop := by
        rcases hleast' with rfl | hmem
        · omega
        · have := hnext least hmem
          omega
      exact .inr ⟨r, mem_cons_self, fun other ho => (hnext other ho).trans_le hle⟩
  · rw [hrow] at hnext
    obtain ⟨hmem, hge, hfirst'⟩ := hnext
    have hlt := R.contains_lt bitmap row hmem
    have hnowrap : r.stop % 4294967296 = r.stop := by
      by_contra hwrap
      have := h row (Request.mem_found.mpr ⟨hmem, by omega, by omega⟩)
      omega
    rw [hnowrap] at hge hfirst'
    rcases hmoved with ⟨-, hnone⟩ | ⟨⟨current, hcurrent⟩, -, hbelow⟩
    · rw [hnone] at hfirst
      have := hfirst row hmem
      omega
    · obtain ⟨-, -, hbehind⟩ := hv.atRow current hcurrent
      refine ⟨hmem, fun other ho => ?_, forall_mem_cons.mpr ⟨⟨row, hmem, by omega⟩, hbehind⟩⟩
      rw [Passed, ← hbelow other ho]
      exact ⟨fun hless => not_le.mp fun hle => absurd (hfirst' other ho hle) (not_le.mpr hless),
        fun hless => hless.trans_le hge⟩

end Request

/-- What one request does, a sequence of exact answers does. -/
theorem reached_after {requests : List Request} (hexact : AllExact bitmap requests) :
    Reached ((create bitmap).after requests) requests.reverse := by
  induction requests using reverseRecOn with
  | nil => exact reached_create bitmap
  | append_singleton requests r ih =>
    have hbefore : AllExact bitmap requests := fun before q after heq =>
      hexact before q (after ++ [r]) (by rw [heq]; simp)
    have hanswer := ((ih hbefore).getDeletionVector r).2 (hexact requests r [] rfl)
    rw [DeletionVector.after, foldl_append, reverse_append]
    exact hanswer

/-- For a bitmap and a sequence of requests, all answers are exact just when each request is
answered after those before it. -/
theorem allExact_iff (R : Roaring) (bitmap : R.Bitmap) (requests : List Request) : AllExact bitmap requests ↔
    ∀ before r after, requests = before ++ r :: after → Answered (R.contains bitmap) before.reverse r := by
  constructor
  · intro hexact before r after heq
    have hbefore : AllExact bitmap before := fun first q rest hq =>
      hexact first q (rest ++ r :: after) (by rw [heq, hq]; simp)
    exact ((reached_after hbefore).getDeletionVector r).1.mp (hexact before r after heq)
  · intro hanswered
    induction requests using reverseRecOn with
    | nil => exact fun before r after heq => absurd heq (by simp)
    | append_singleton requests last ih =>
      have hbefore : AllExact bitmap requests := ih fun before r after heq =>
        hanswered before r (after ++ [last]) (by rw [heq]; simp)
      intro before r after heq
      rcases eq_nil_or_concat' after with rfl | ⟨rest, q, rfl⟩
      · obtain ⟨rfl, hr⟩ := append_inj' heq rfl
        obtain rfl : last = r := by simpa using hr
        exact ((reached_after hbefore).getDeletionVector last).1.mpr (hanswered requests last [] rfl)
      · rw [← cons_append, ← append_assoc] at heq
        exact hbefore before r rest (append_inj' heq rfl).1

/-! ## Lists of rows -/

/-- A bitmap that is the list of its rows. An iterator is the least row it may be at. -/
def Roaring.ofLists : Roaring where
  Bitmap := { rows : List ℕ // rows.Pairwise (· < ·) ∧ ∀ row ∈ rows, row < 4294967296 }
  contains bitmap row := decide (row ∈ bitmap.1)
  contains_lt bitmap row h := bitmap.2.2 row (by simpa using h)
  Iterator _ := ℕ
  start _ := 0
  current {bitmap} it := bitmap.1.find? (it ≤ ·)
  next {bitmap} it := (bitmap.1.find? (it ≤ ·)).elim it (· + 1)
  moveEqualOrLarger _ row := row
  current_start bitmap := first_find? bitmap.2.1 0
  current_next {bitmap _ row} h := by
    rw [h]
    exact first_find? bitmap.2.1 (row + 1)
  current_moveEqualOrLarger {bitmap} _ row := first_find? bitmap.2.1 row
where
  first_find? {rows : List ℕ} (hs : rows.Pairwise (· < ·)) (least : ℕ) :
      First (fun row => decide (row ∈ rows)) least (rows.find? (least ≤ ·)) := by
    cases hf : rows.find? (least ≤ ·) with
    | none =>
      intro row hrow
      have := find?_eq_none.mp hf row (by simpa using hrow)
      simpa using this
    | some found =>
      obtain ⟨hle, before, after, rfl, hnot⟩ := find?_eq_some_iff_append.mp hf
      refine ⟨by simp, by simpa using hle, fun row hrow hge => ?_⟩
      rcases mem_append.mp (by simpa using hrow : row ∈ before ++ found :: after) with hb | hb
      · have := hnot row hb
        simp only [Bool.not_eq_true', decide_eq_false_iff_not] at this
        exact absurd hge this
      · rcases mem_cons.mp hb with rfl | ha
        · exact le_rfl
        · exact ((pairwise_cons.mp (pairwise_append.mp hs).2.1).1 row ha).le

/-- The rows 5 and 20 are deleted. -/
def fiveTwenty : Roaring.ofLists.Bitmap := ⟨[5, 20], by simp⟩

/-- Windows of ten rows. -/
def tenRowsFrom (offset : Fin 100) : Request := ⟨offset, 10, none, by omega, by decide⟩

/-- Two windows that overlap, the second of which begins before the last row found. -/
theorem allExact_overlapping : AllExact fiveTwenty [tenRowsFrom 0, tenRowsFrom 4] := by
  refine (allExact_iff Roaring.ofLists fiveTwenty _).mpr fun before r after heq => ?_
  have hanswered : Answered (Roaring.ofLists.contains fiveTwenty) [] (tenRowsFrom 0) ∧
      Answered (Roaring.ofLists.contains fiveTwenty) [tenRowsFrom 0] (tenRowsFrom 4) := by
    refine ⟨⟨by decide, fun row _ => ⟨by decide, by simp, .inr id⟩⟩, by decide, fun row _ => ⟨by decide, ?_, ?_⟩⟩
    · exact fun q hq => ⟨20, by decide, by rw [mem_singleton.mp hq]; decide⟩
    · exact .inl (by decide)
  match before with
  | [] =>
    obtain ⟨rfl, -⟩ := cons.inj heq
    exact hanswered.1
  | [q] =>
    obtain ⟨rfl, hrest⟩ := cons.inj heq
    obtain ⟨rfl, -⟩ := cons.inj hrest
    exact hanswered.2
  | _ :: _ :: _ => exact absurd (congrArg length heq) (by simp)

/-- Asked twice for a window behind which no row is deleted, the second answer lacks the row
that is deleted in it. -/
theorem sameWindow_missesRow : ¬AllExact fiveTwenty [tenRowsFrom 15, tenRowsFrom 15] := by
  intro h
  have hfirst : AllExact fiveTwenty [tenRowsFrom 15] := fun before r after heq =>
    h before r (after ++ [tenRowsFrom 15]) (by rw [← cons_append, ← append_assoc, ← heq]; rfl)
  have hanswered := ((reached_after hfirst).getDeletionVector (tenRowsFrom 15)).1.mp (h [_] _ [] rfl)
  obtain ⟨behind, hbehind, hle⟩ := (hanswered.2 20 (by decide)).2.1 (tenRowsFrom 15) (by simp)
  have hrow : behind = 5 ∨ behind = 20 := by simpa [Roaring.ofLists, fiveTwenty] using hbehind
  have hstop : (tenRowsFrom 15).stop = 25 := rfl
  omega

end Bolt.DeletionVectors
