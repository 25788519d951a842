import Mathlib.Data.List.Basic

/-!
# The exchange queue

Sources put pages into an `ExchangeQueue`, consumers take them out, and every call holds the
lock of the queue. A `dequeueLocked` that takes the last page before the end also registers a
promise, and the pages that an error or `close` drops stay in `totalBytes`.
-/

namespace Bolt.Exchange

open List

structure SerializedPage where
  id : ℕ
  size : UInt64
deriving DecidableEq

/-- A promise, by the pages that its consumer got together with the future. -/
abbrev Promise := List SerializedPage

structure ExchangeQueue where
  numCompleted : ℕ := 0
  numSources : ℕ := 0
  noMoreSources : Bool := false
  atEnd : Bool := false
  queue : List SerializedPage := []
  promises : List Promise := []
  error : String := ""
  totalBytes : UInt64 := 0

def checkCompleteLocked (q : ExchangeQueue) : List Promise × ExchangeQueue :=
  if q.noMoreSources ∧ q.numCompleted = q.numSources then (q.promises, { q with atEnd := true, promises := [] })
  else ([], q)

def noMoreSources (q : ExchangeQueue) : List Promise × ExchangeQueue :=
  checkCompleteLocked { q with noMoreSources := true }

def close (q : ExchangeQueue) : List Promise × ExchangeQueue := (q.promises, { q with queue := [], promises := [] })

def addSourceLocked (q : ExchangeQueue) : Except String ExchangeQueue :=
  if q.noMoreSources then .error "addSource called after noMoreSources"
  else .ok { q with numSources := q.numSources + 1 }

/-- No page means that a source has completed. -/
def enqueueLocked (page : Option SerializedPage) (q : ExchangeQueue) : List Promise × ExchangeQueue :=
  match page with
  | none => checkCompleteLocked { q with numCompleted := q.numCompleted + 1 }
  | some page =>
    let q := { q with totalBytes := q.totalBytes + page.size, queue := q.queue ++ [page] }
    match q.promises.getLast? with
    | none => ([], q)
    | some promise => ([promise], { q with promises := q.promises.dropLast })

/-- The loop of `dequeueLocked`: the pages, and the queue and `totalBytes` after it. -/
def takePages (maxBytes pageBytes : UInt32) (totalBytes : UInt64) :
    List SerializedPage → List SerializedPage × List SerializedPage × UInt64
  | [] => ([], [], totalBytes)
  | page :: queue =>
    if 0 < pageBytes ∧ maxBytes.toUInt64 < pageBytes.toUInt64 + page.size then ([], page :: queue, totalBytes)
    else
      let (pages, rest) := takePages maxBytes (pageBytes + page.size.toUInt32) (totalBytes - page.size) queue
      (page :: pages, rest)

structure Answer where
  pages : List SerializedPage
  atEnd : Bool := false
  future : Bool := false

def dequeueLocked (maxBytes : UInt32) (q : ExchangeQueue) : Except String (Answer × ExchangeQueue) :=
  if q.error ≠ "" then .error q.error
  else
    let (pages, queue, totalBytes) := takePages maxBytes 0 q.totalBytes q.queue
    let q := { q with queue, totalBytes }
    if queue ≠ [] then .ok ({ pages }, q)
    else if q.atEnd then .ok ({ pages, atEnd := true }, q)
    else .ok ({ pages, future := true }, { q with promises := q.promises ++ [pages] })

def setError (error : String) (q : ExchangeQueue) : List Promise × ExchangeQueue :=
  if q.error ≠ "" then ([], q)
  else (q.promises, { q with error, atEnd := true, queue := [], promises := [] })

inductive Event where
  | addSource
  | noMoreSources
  | complete
  | enqueue (page : SerializedPage)
  | dequeue (maxBytes : UInt32)
  | setError (error : String)
  | close

/-- The queue, the pages that went in and out, and whether there was an error. -/
structure System where
  queue : ExchangeQueue := {}
  entered : List SerializedPage := []
  returned : List SerializedPage := []
  failed : Bool := false

/-- Each of the announced sources completes once. -/
def System.step (s : System) : Event → System
  | .addSource =>
    match addSourceLocked s.queue with
    | .error _ => s
    | .ok queue => { s with queue }
  | .noMoreSources => { s with queue := (noMoreSources s.queue).2 }
  | .complete =>
    if s.queue.numCompleted < s.queue.numSources then { s with queue := (enqueueLocked none s.queue).2 } else s
  | .enqueue page => { s with queue := (enqueueLocked (some page) s.queue).2, entered := s.entered ++ [page] }
  | .dequeue maxBytes =>
    match dequeueLocked maxBytes s.queue with
    | .error _ => s
    | .ok (answer, queue) => { s with queue, returned := s.returned ++ answer.pages }
  | .setError error => { s with queue := (setError error s.queue).2, failed := true }
  | .close => { s with queue := (close s.queue).2 }

def bytes : List SerializedPage → UInt64
  | [] => 0
  | page :: pages => page.size + bytes pages

/-- What `dequeueLocked` should return. -/
def System.Answered (s : System) : Except String (Answer × ExchangeQueue) → Prop
  | .error _ => s.failed = true
  | .ok (answer, after) => s.failed = false ∧ (s.queue.queue ≠ [] → answer.pages ≠ []) ∧
      (answer.pages = [] → (answer.future = false ↔ answer.atEnd = true)) ∧
      (answer.pages ≠ [] → answer.future = false) ∧
      (answer.atEnd = true ↔ s.queue.noMoreSources = true ∧ s.queue.numCompleted = s.queue.numSources ∧ after.queue = [])

structure Right (s : System) (e : Event) : Prop where
  inOrder : (s.step e).returned <+ (s.step e).entered
  totalBytes : (s.step e).queue.totalBytes = bytes (s.step e).queue.queue
  wakes : ∀ page, e = .enqueue page → [] ∈ s.queue.promises → (enqueueLocked (some page) s.queue).1 = [[]]
  answers : ∀ maxBytes, e = .dequeue maxBytes → s.Answered (dequeueLocked maxBytes s.queue)

/-- Every page fits behind those before it. The sizes before it are summed up in 32 bits, and a
page that no byte is before fits always. -/
def AllFit (maxBytes : UInt32) (queue : List SerializedPage) : Prop :=
  ∀ before page after, queue = before ++ page :: after →
    (bytes before).toUInt32 = 0 ∨ (bytes before).toUInt32.toUInt64 + page.size ≤ maxBytes.toUInt64

/-- An error has a text when pages are asked for. Before the end they are asked for with a limit
that some page of the queue does not fit into, or the queue is empty. The queue is closed, or has
its first error, when its pages have no bytes. -/
def Clean (s : System) : Event → Prop
  | .dequeue maxBytes => (s.failed = true → s.queue.error ≠ "") ∧ (s.failed = false → s.queue.atEnd = false →
      AllFit maxBytes s.queue.queue → s.queue.queue = [])
  | .setError _ => s.queue.error = "" → bytes s.queue.queue = 0
  | .close => bytes s.queue.queue = 0
  | _ => True

def Along (P : System → Event → Prop) (s : System) : List Event → Prop
  | [] => True
  | e :: events => P s e ∧ Along P (s.step e) events

structure Invariant (s : System) : Prop where
  inOrder : s.returned ++ s.queue.queue <+ s.entered
  totalBytes : s.queue.totalBytes = bytes s.queue.queue
  waits : ∀ promise ∈ s.queue.promises, promise = []
  completed : s.queue.numCompleted ≤ s.queue.numSources
  ends : s.failed = false → s.queue.error = "" ∧
    (s.queue.atEnd = true ↔ s.queue.noMoreSources = true ∧ s.queue.numCompleted = s.queue.numSources)

theorem bytes_concat (l : List SerializedPage) (page : SerializedPage) : bytes (l ++ [page]) = bytes l + page.size := by
  induction l with
  | nil => exact UInt64.add_comm ..
  | cons first l ih => rw [cons_append, bytes, ih, bytes, UInt64.add_assoc]

/-- The loop empties the queue where every page fits. -/
theorem takePages_empties_iff (maxBytes pageBytes : UInt32) (totalBytes : UInt64) (l : List SerializedPage) :
    (takePages maxBytes pageBytes totalBytes l).2.1 = [] ↔ ∀ before page after, l = before ++ page :: after →
      pageBytes + (bytes before).toUInt32 = 0 ∨
        (pageBytes + (bytes before).toUInt32).toUInt64 + page.size ≤ maxBytes.toUInt64 := by
  induction l generalizing pageBytes totalBytes with
  | nil => simp [takePages]
  | cons first l ih =>
    unfold takePages
    split_ifs with hf
    · -- the first page is the one that does not fit
      refine iff_of_false nofun fun h => ?_
      have hzero : pageBytes + (bytes []).toUInt32 = pageBytes := UInt32.add_zero pageBytes
      have hfirst := h [] first l rfl
      rw [hzero] at hfirst
      rcases hfirst with hzero | hle
      · exact absurd (hzero ▸ hf.1) (by decide)
      · exact absurd hf.2 (UInt64.not_lt.mpr hle)
    · rw [ih]
      have hfits : pageBytes = 0 ∨ pageBytes.toUInt64 + first.size ≤ maxBytes.toUInt64 := by
        rw [not_and_or, UInt64.not_lt] at hf
        refine hf.imp (fun h => ?_) id
        exact UInt32.le_zero_iff.mp (UInt32.not_lt.mp h)
      have hsum : ∀ before, pageBytes + first.size.toUInt32 + (bytes before).toUInt32 =
          pageBytes + (bytes (first :: before)).toUInt32 := by
        intro before
        rw [bytes, UInt64.toUInt32_add, UInt32.add_assoc]
      constructor
      · rintro h (_ | ⟨page', before⟩) page after heq
        · obtain ⟨rfl, -⟩ := cons.inj heq
          simpa [bytes] using hfits
        · obtain ⟨rfl, hl⟩ := cons.inj heq
          rw [← hsum]
          exact h before page after hl
      · intro h before page after hl
        rw [hsum]
        exact h (first :: before) page after (by rw [hl]; rfl)

theorem takePages_all_iff (maxBytes : UInt32) (totalBytes : UInt64) (l : List SerializedPage) :
    (takePages maxBytes 0 totalBytes l).2.1 = [] ↔ AllFit maxBytes l := by
  simp only [takePages_empties_iff, AllFit, UInt32.zero_add]

theorem takePages_spec (maxBytes pageBytes : UInt32) (l : List SerializedPage) :
    ∃ pages queue, takePages maxBytes pageBytes (bytes l) l = (pages, queue, bytes queue) ∧ pages ++ queue = l ∧
      (pageBytes = 0 → pages = [] → l = []) := by
  induction l generalizing pageBytes with
  | nil => exact ⟨[], [], rfl, rfl, fun _ _ => rfl⟩
  | cons page l ih =>
    unfold takePages
    split_ifs with hf
    · exact ⟨[], page :: l, rfl, rfl, fun hz => absurd (hz ▸ hf.1) (by decide)⟩
    · obtain ⟨pages, queue, ht, rfl, _⟩ := ih (pageBytes + page.size.toUInt32)
      refine ⟨page :: pages, queue, ?_, rfl, fun _ => nofun⟩
      rw [bytes, UInt64.add_comm, UInt64.add_sub_cancel, ht]

variable {s : System} (h : Invariant s)
include h

theorem Invariant.checkComplete {completed : ℕ} {noMore : Bool} (hle : completed ≤ s.queue.numSources)
    (hs : s.failed = false → s.queue.atEnd = true → noMore = true ∧ completed = s.queue.numSources) :
    Invariant { s with
      queue := (checkCompleteLocked { s.queue with numCompleted := completed, noMoreSources := noMore }).2 } := by
  unfold checkCompleteLocked
  split_ifs with ha
  · exact ⟨h.inOrder, h.totalBytes, nofun, hle, fun ho => ⟨(h.ends ho).1, iff_of_true rfl ha⟩⟩
  · refine ⟨h.inOrder, h.totalBytes, h.waits, hle, fun ho => ⟨(h.ends ho).1, ?_⟩⟩
    exact ⟨hs ho, fun hd => absurd hd ha⟩

theorem Invariant.enqueue (page : SerializedPage) : Invariant (s.step (.enqueue page)) ∧
    ([] ∈ s.queue.promises → (enqueueLocked (some page) s.queue).1 = [[]]) := by
  have ho : s.returned ++ (s.queue.queue ++ [page]) <+ s.entered ++ [page] := by
    rw [← append_assoc]
    exact h.inOrder.append_right _
  have hb : s.queue.totalBytes + page.size = bytes (s.queue.queue ++ [page]) := by
    rw [bytes_concat, h.totalBytes]
  unfold System.step enqueueLocked
  cases hl : s.queue.promises.getLast? with
  | none =>
    simp only [hl]
    exact ⟨⟨ho, hb, h.waits, h.completed, h.ends⟩, by simp [getLast?_eq_none_iff.mp hl]⟩
  | some promise =>
    simp only [hl]
    refine ⟨⟨ho, hb, fun other hoth => ?_, h.completed, h.ends⟩, fun _ => ?_⟩
    · exact h.waits other ((dropLast_sublist _).subset hoth)
    · rw [h.waits promise (mem_of_getLast? hl)]

/-- Pages that are dropped without a byte leave the accounts right. -/
theorem Invariant.drop (hem : s.queue.totalBytes = 0) {error : String} {atEnd failed : Bool}
    (hen : failed = false → s.failed = false ∧ error = s.queue.error ∧ atEnd = s.queue.atEnd) :
    Invariant { s with queue := { s.queue with queue := [], promises := [], error, atEnd }, failed } where
  inOrder := by
    rw [append_nil]
    exact (sublist_append_left _ _).trans h.inOrder
  totalBytes := hem
  waits := nofun
  completed := h.completed
  ends ho := by
    obtain ⟨hold, rfl, rfl⟩ := hen ho
    exact h.ends hold

/-- A call that registers a promise only if it has no page does what it should. -/
theorem Invariant.dequeue (maxBytes : UInt32) :
    (s.Answered (dequeueLocked maxBytes s.queue) ↔ Clean s (.dequeue maxBytes)) ∧
      (Clean s (.dequeue maxBytes) → Invariant (s.step (.dequeue maxBytes))) := by
  unfold Clean System.step
  dsimp only
  rw [← takePages_all_iff maxBytes s.queue.totalBytes]
  by_cases herr : s.queue.error = ""
  · obtain ⟨pages, queue, ht, hpa, hp⟩ := takePages_spec maxBytes 0 s.queue.queue
    have ho := h.inOrder
    rw [← hpa, ← append_assoc] at ho
    rw [h.totalBytes, ht, dequeueLocked, if_neg (not_not.mpr herr), h.totalBytes, ht]
    dsimp only
    cases hf : s.failed with
    | true =>
      refine ⟨iff_of_false ?_ fun hc => hc.1 rfl herr, fun hc => absurd herr (hc.1 rfl)⟩
      split_ifs <;> exact fun han => nomatch hf.symm.trans han.1
    | false =>
      have hend := (h.ends hf).2
      have hs := fun _ : false = false => h.ends hf
      have hfi : s.queue.queue ≠ [] → pages ≠ [] := mt (hp rfl)
      split_ifs with hne hen
      · refine ⟨iff_of_true ⟨hf, hfi, fun hem => ?_, fun _ => rfl, ?_⟩ ⟨nofun, fun _ _ hn => absurd hn hne⟩,
          fun _ => ⟨ho, rfl, h.waits, h.completed, hs⟩⟩
        · exact absurd (append_eq_nil_iff.mp (hpa.trans (hp rfl hem))).2 hne
        · exact iff_of_false nofun fun ha => hne ha.2.2
      · obtain ⟨hno, ha⟩ := hend.mp hen
        refine ⟨iff_of_true ⟨hf, hfi, fun _ => iff_of_true rfl rfl, fun _ => rfl, ?_⟩ ⟨nofun, fun _ hr => ?_⟩,
          fun _ => ⟨ho, rfl, h.waits, h.completed, hs⟩⟩
        · exact iff_of_true rfl ⟨hno, ha, not_not.mp hne⟩
        · exact nomatch hen.symm.trans hr
      · have hn := not_not.mp hne
        have hr := Bool.eq_false_iff.mpr hen
        have hem : s.queue.queue = [] → pages = [] := fun hq => (append_eq_nil_iff.mp (hpa.trans hq)).1
        refine ⟨⟨fun han => ⟨nofun, fun _ _ _ => ?_⟩, fun hc => ?_⟩, fun hc => ?_⟩
        · exact not_not.mp fun hq => nomatch han.2.2.2.1 (hfi hq)
        · refine ⟨hf, hfi, fun _ => iff_of_false nofun nofun, fun hpag => ?_, iff_of_false nofun fun ha => ?_⟩
          · exact absurd (hem (hc.2 rfl hr hn)) hpag
          · exact hen (hend.mpr ⟨ha.1, ha.2.1⟩)
        · refine ⟨ho, rfl, fun promise hpromise => ?_, h.completed, hs⟩
          rcases mem_append.mp hpromise with hold | hnew
          · exact h.waits promise hold
          · exact (mem_singleton.mp hnew).trans (hem (hc.2 rfl hr hn))
  · have hf : s.failed = true := Bool.of_not_eq_false fun hok => herr (h.ends hok).1
    rw [dequeueLocked, if_pos herr]
    exact ⟨iff_of_true hf ⟨fun _ => herr, fun hok => by rw [hok] at hf; cases hf⟩, fun _ => h⟩

theorem Invariant.step {e : Event} (hc : Clean s e) : Invariant (s.step e) := by
  cases e with
  | addSource =>
    unfold System.step
    dsimp only
    split
    · exact h
    · rename_i queue hq
      unfold addSourceLocked at hq
      split_ifs at hq with hn
      cases hq
      refine ⟨h.inOrder, h.totalBytes, h.waits, Nat.le_succ_of_le h.completed, fun ho => ⟨(h.ends ho).1, ?_⟩⟩
      exact iff_of_false (fun hen => hn ((h.ends ho).2.mp hen).1) fun ha => hn ha.1
  | noMoreSources => exact h.checkComplete h.completed fun ho hen => ⟨rfl, ((h.ends ho).2.mp hen).2⟩
  | complete =>
    unfold System.step
    dsimp only
    split_ifs with hlt
    · refine h.checkComplete hlt fun ho hen => ?_
      have ha := ((h.ends ho).2.mp hen).2
      omega
    · exact h
  | enqueue page => exact (h.enqueue page).1
  | dequeue maxBytes => exact (h.dequeue maxBytes).2 hc
  | setError error =>
    unfold System.step setError
    dsimp only
    split_ifs with herr
    · exact ⟨h.inOrder, h.totalBytes, h.waits, h.completed, nofun⟩
    · exact h.drop (h.totalBytes.trans (hc (not_not.mp herr))) nofun
  | close => exact h.drop (h.totalBytes.trans hc) fun ho => ⟨ho, rfl, rfl⟩

theorem Invariant.right_iff (e : Event) : Right s e ↔ Clean s e := by
  constructor
  · intro hr
    cases e with
    | dequeue maxBytes => exact (h.dequeue maxBytes).1.mp (hr.answers maxBytes rfl)
    | setError error =>
      intro herr
      have ht := hr.totalBytes
      rw [System.step, setError, if_neg (not_not.mpr herr)] at ht
      exact h.totalBytes.symm.trans ht
    | close => exact h.totalBytes.symm.trans hr.totalBytes
    | _ => trivial
  · intro hc
    have hs := h.step hc
    refine ⟨(sublist_append_left _ _).trans hs.inOrder, hs.totalBytes, fun page _ => (h.enqueue page).2, ?_⟩
    intro maxBytes he
    subst he
    exact (h.dequeue maxBytes).1.mpr hc

theorem Invariant.along_iff (events : List Event) : Along Right s events ↔ Along Clean s events := by
  induction events generalizing s with
  | nil => exact Iff.rfl
  | cons e events ih =>
    rw [Along, Along, h.right_iff e]
    exact and_congr_right fun hc => ih (h.step hc)

omit h

theorem invariant_start : Invariant {} :=
  ⟨Sublist.refl _, rfl, nofun, Nat.le_refl _, fun _ => ⟨rfl, iff_of_false nofun nofun⟩⟩

/-- Every event of a run does what it should exactly if no call before the end has room for all
pages of the queue, pages are dropped only if they have no bytes, and no call follows an error
without a text. -/
theorem exchange_right_iff (events : List Event) : Along Right {} events ↔ Along Clean {} events :=
  invariant_start.along_iff events

/-- The only page is returned together with a future. -/
theorem lastPage_registersPromise : ¬Along Right {} [.addSource, .enqueue ⟨0, 5⟩, .dequeue 100] := by
  rw [invariant_start.along_iff]
  intro hclean
  exact nomatch hclean.2.2.1.2 rfl rfl ((takePages_all_iff 100 5 [⟨0, 5⟩]).mp (by decide))

end Bolt.Exchange
