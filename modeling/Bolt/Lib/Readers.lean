import Bolt.Lib.OrderCode
import Mathlib.Data.Int.Notation

/-!
# Readers

Readers of texts over an alphabet `γ` that may fail with an error: a reader takes
letters off the front of the text and leaves the rest. A pair reader does so on two
texts at once, which is how two encoded values are compared without decoding them.
-/

namespace Bolt.Lib.Readers

open Std Compare OrderCode List

abbrev Reader (ε γ : Type) := StateT (List γ) (Except ε)

abbrev PairReader (ε γ : Type) := StateT (List γ × List γ) (Except ε)

variable {α β γ ε σ : Type}

def next (truncated : ε) : Reader ε γ γ
  | [] => .error truncated
  | letter :: rest => .ok (letter, rest)

def peek (truncated : ε) : Reader ε γ γ
  | [] => .error truncated
  | letter :: rest => .ok (letter, letter :: rest)

def taken (truncated : ε) (count : ℕ) : Reader ε γ (List γ) := fun text =>
  if count ≤ text.length then .ok (text.take count, text.drop count) else .error truncated

def consumed (x : Reader ε γ Unit) : Reader ε γ (List γ) := do
  let before ← get
  x
  let after ← get
  return before.take (before.length - after.length)

/-- Reads elements up to a delimiter and the delimiter itself, with a bound on the
number of rounds. -/
def elementsUntil [DecidableEq γ] (truncated exhausted : ε) (delimiter : γ) (element : Reader ε γ β) :
    ℕ → Reader ε γ (List β)
  | 0 => throw exhausted
  | rounds + 1 => do
    let letter ← peek truncated
    if letter = delimiter then
      let _ ← next truncated
      return []
    else
      let first ← element
      let others ← elementsUntil truncated exhausted delimiter element rounds
      return first :: others

/-- Reads elements up to a delimiter. An element takes at least one letter, so the
length of the text bounds the rounds. -/
def untilDelimiter [DecidableEq γ] (truncated exhausted : ε) (delimiter : γ) (element : Reader ε γ β) :
    Reader ε γ (List β) := do
  let text ← get
  elementsUntil truncated exhausted delimiter element (text.length + 1)

def times (element : Reader ε γ β) : ℕ → Reader ε γ (List β)
  | 0 => return []
  | count + 1 => do
    let first ← element
    let others ← times element count
    return first :: others

def left (x : Reader ε γ α) : PairReader ε γ α := fun texts => do
  let (a, rest) ← x.run texts.1
  return (a, rest, texts.2)

def right (x : Reader ε γ α) : PairReader ε γ α := fun texts => do
  let (a, rest) ← x.run texts.2
  return (a, texts.1, rest)

def firstDifference (x y : PairReader ε γ ℤ) : PairReader ε γ ℤ := do
  let result ← x
  if result ≠ 0 then return result else y

/-- Compares elements up to the delimiter of either text, with a bound on the number
of rounds; the count is the number of elements found equal. -/
def compareElements [DecidableEq γ] (verdict : γ → γ → ℤ) (truncated exhausted : ε) (delimiter : γ)
    (element : PairReader ε γ ℤ) : ℕ → ℕ → PairReader ε γ (ℤ × ℕ)
  | 0, _ => throw exhausted
  | rounds + 1, count => do
    let a ← left (peek truncated)
    let b ← right (peek truncated)
    if a = delimiter ∨ b = delimiter then
      if a ≠ b then return (verdict a b, count)
      else
        let _ ← left (next truncated)
        let _ ← right (next truncated)
        return (0, count)
    else
      let result ← element
      if result ≠ 0 then return (result, count)
      else compareElements verdict truncated exhausted delimiter element rounds (count + 1)

def compareUntil [DecidableEq γ] (verdict : γ → γ → ℤ) (truncated exhausted : ε) (delimiter : γ)
    (element : PairReader ε γ ℤ) : PairReader ε γ (ℤ × ℕ) := do
  let texts ← get
  compareElements verdict truncated exhausted delimiter element (texts.1.length + 1) 0

def compareTimes (element : PairReader ε γ ℤ) : ℕ → PairReader ε γ ℤ
  | 0 => return 0
  | count + 1 => firstDifference element (compareTimes element count)

/-- A step that succeeds hands its value and the rest of the state on. -/
theorem run_bind_ok {x : StateT σ (Except ε) α} {f : α → StateT σ (Except ε) β} {s s' : σ} {a : α}
    (h : x.run s = .ok (a, s')) : (x >>= f).run s = (f a).run s' := by
  rw [StateT.run_bind, h]
  rfl

@[simp] theorem run_next (truncated : ε) (letter : γ) (rest : List γ) :
    (next truncated).run (letter :: rest) = .ok (letter, rest) := rfl

@[simp] theorem run_peek (truncated : ε) (letter : γ) (rest : List γ) :
    (peek truncated).run (letter :: rest) = .ok (letter, letter :: rest) := rfl

theorem run_taken (truncated : ε) {count : ℕ} {front : List γ} (h : front.length = count) (rest : List γ) :
    (taken truncated count).run (front ++ rest) = .ok (front, rest) := by
  subst h
  simp [taken, StateT.run]

theorem run_consumed {x : Reader ε γ Unit} {front rest : List γ} (h : x.run (front ++ rest) = .ok ((), rest)) :
    (consumed x).run (front ++ rest) = .ok (front, rest) := by
  have hg : ∀ text : List γ, (get : Reader ε γ (List γ)).run text = .ok (text, text) := fun _ => rfl
  rw [consumed, run_bind_ok (hg _), run_bind_ok h, run_bind_ok (hg _)]
  simp
  rfl

theorem run_left {x : Reader ε γ α} {text rest other : List γ} {a : α} (h : x.run text = .ok (a, rest)) :
    (left x).run (text, other) = .ok (a, rest, other) := by
  show (x.run text >>= _) = _
  rw [h]
  rfl

theorem run_right {x : Reader ε γ α} {text rest other : List γ} {a : α} (h : x.run text = .ok (a, rest)) :
    (right x).run (other, text) = .ok (a, other, rest) := by
  show (x.run text >>= _) = _
  rw [h]
  rfl

private theorem length_le_flatMap {enc : α → List γ} {l : List α} (h : ∀ a ∈ l, enc a ≠ []) :
    l.length ≤ (l.flatMap enc).length := by
  induction l with
  | nil => exact Nat.le_refl 0
  | cons a l ih =>
    have hh := length_pos_iff.mpr (h a mem_cons_self)
    have ht := ih fun b hb => h b (mem_cons_of_mem a hb)
    rw [flatMap_cons, length_append, length_cons]
    omega

/-- Behind the code of a value satisfying `P` the reader finds what `view` shows of
the value, and leaves what follows. -/
def DecodesOn (P : α → Prop) (enc : α → List γ) (view : α → β) (x : Reader ε γ β) : Prop :=
  ∀ a, P a → ∀ r, x.run (enc a ++ r) = .ok (view a, r)

section Decoding

variable [DecidableEq γ] {P : α → Prop} {enc : α → List γ} {view : α → β} {element : Reader ε γ β}
  {delimiter : γ}

section

variable (truncated exhausted : ε) (h : DecodesOn P enc view element)
  (hh : ∀ a, P a → ∃ letter t, enc a = letter :: t ∧ letter ≠ delimiter)
include truncated exhausted h hh

private theorem run_elementsUntil (l : List α) (hl : ∀ a ∈ l, P a) {rounds : ℕ} (hr : l.length < rounds)
    (r : List γ) :
    (elementsUntil truncated exhausted delimiter element rounds).run (l.flatMap enc ++ delimiter :: r) =
      .ok (l.map view, r) := by
  induction l generalizing rounds with
  | nil =>
    obtain ⟨rounds, rfl⟩ := Nat.exists_eq_add_one_of_ne_zero (Nat.ne_of_gt hr)
    rw [elementsUntil, flatMap_nil, nil_append, run_bind_ok (run_peek ..), if_pos rfl, run_bind_ok (run_next ..)]
    rfl
  | cons a l ih =>
    obtain ⟨rounds, rfl⟩ := Nat.exists_eq_add_one_of_ne_zero (Nat.ne_zero_of_lt hr)
    have ha := hl a mem_cons_self
    obtain ⟨letter, t, hc, hne⟩ := hh a ha
    have hte : (a :: l).flatMap enc ++ delimiter :: r = enc a ++ (l.flatMap enc ++ delimiter :: r) := by
      rw [flatMap_cons, append_assoc]
    have hp : (peek truncated).run (enc a ++ (l.flatMap enc ++ delimiter :: r)) =
        .ok (letter, enc a ++ (l.flatMap enc ++ delimiter :: r)) := by
      rw [hc, cons_append, run_peek]
    have ht := ih (fun b hb => hl b (mem_cons_of_mem a hb)) (Nat.lt_of_succ_lt_succ hr)
    rw [elementsUntil, hte, run_bind_ok hp, if_neg hne, run_bind_ok (h a ha _), run_bind_ok ht]
    rfl

/-- Elements written one after the other and a delimiter at the end. -/
theorem DecodesOn.untilDelimiter :
    DecodesOn (fun l : List α => ∀ a ∈ l, P a) (fun l => l.flatMap enc ++ [delimiter]) (map view)
      (untilDelimiter truncated exhausted delimiter element) := by
  intro l hl r
  have hlen : l.length ≤ (l.flatMap enc).length := by
    refine length_le_flatMap fun a ha => ?_
    obtain ⟨letter, t, hc, -⟩ := hh a (hl a ha)
    rw [hc]
    exact cons_ne_nil letter t
  rw [append_assoc]
  refine run_elementsUntil truncated exhausted h hh l hl ?_ r
  rw [length_append]
  omega

end

omit [DecidableEq γ] in
theorem DecodesOn.times (h : DecodesOn P enc view element) (l : List α) (hl : ∀ a ∈ l, P a) (r : List γ) :
    (times element l.length).run (l.flatMap enc ++ r) = .ok (l.map view, r) := by
  induction l with
  | nil => rfl
  | cons a l ih =>
    have hh := h a (hl a mem_cons_self) (l.flatMap enc ++ r)
    have ht := ih fun b hb => hl b (mem_cons_of_mem a hb)
    rw [flatMap_cons, append_assoc, length_cons, Readers.times, run_bind_ok hh, run_bind_ok ht]
    rfl

end Decoding

/-- Behind the codes of two values satisfying `P` the reader finds the sign of their
order, and when they are equal it leaves what follows in both texts. -/
def ComparesOn (P : α → Prop) (cmp : α → α → Ordering) (enc : α → List γ) (x : PairReader ε γ ℤ) : Prop :=
  ∀ a b, P a → P b → ∀ r s, ∃ result rest, x.run (enc a ++ r, enc b ++ s) = .ok (result, rest) ∧
    compare result 0 = cmp a b ∧ (cmp a b = .eq → rest = (r, s))

section Comparing

variable {P : α → Prop} {Q : β → Prop} {cmp : α → α → Ordering} {cmp' : β → β → Ordering} {enc : α → List γ}
  {enc' : β → List γ} {x y : PairReader ε γ ℤ}

theorem ComparesOn.comap (h : ComparesOn P cmp enc x) (f : β → α) (hP : ∀ b, Q b → P (f b))
    (hc : ∀ a b, Q a → Q b → cmp' a b = cmp (f a) (f b)) (hen : ∀ b, Q b → enc' b = enc (f b)) :
    ComparesOn Q cmp' enc' x := by
  intro a b ha hb r s
  rw [hen a ha, hen b hb, hc a b ha hb]
  exact h (f a) (f b) (hP a ha) (hP b hb) r s

/-- A comparison that goes on where the first reader stopped, if that found equality. -/
theorem run_firstDifference {texts : List γ × List γ} {first : Ordering} {after : List γ × List γ}
    (hx : ∃ result rest, x.run texts = .ok (result, rest) ∧ compare result 0 = first ∧ (first = .eq → rest = after))
    {snd : Ordering} {final : List γ × List γ}
    (hy : first = .eq → ∃ result rest, y.run after = .ok (result, rest) ∧ compare result 0 = snd ∧
      (snd = .eq → rest = final)) :
    ∃ result rest, (firstDifference x y).run texts = .ok (result, rest) ∧
      compare result 0 = first.then snd ∧ (first.then snd = .eq → rest = final) := by
  obtain ⟨result, rest, hru, hs, hr⟩ := hx
  rw [firstDifference, run_bind_ok hru]
  by_cases hz : result = 0
  · have hf : first = .eq := by rw [← hs, hz]; rfl
    subst hf
    rw [if_neg (not_not_intro hz), hr rfl]
    exact hy rfl
  · have hf : first ≠ .eq := by
      rw [← hs]
      exact fun heq => hz (Int.compare_eq_eq.mp heq)
    rw [if_pos hz]
    refine ⟨result, rest, rfl, ?_, ?_⟩ <;> cases first
    all_goals first | exact hs | exact absurd rfl hf | exact fun heq => nomatch heq

theorem ComparesOn.pair (hx : ComparesOn P cmp enc x) (hy : ComparesOn Q cmp' enc' y) :
    ComparesOn (fun v : α × β => P v.1 ∧ Q v.2) (comparePair cmp cmp') (fun v => enc v.1 ++ enc' v.2)
      (firstDifference x y) := by
  intro v w hv hw r s
  rw [append_assoc, append_assoc]
  exact run_firstDifference (hx v.1 w.1 hv.1 hw.1 _ _) fun _ => hy v.2 w.2 hv.2 hw.2 r s

/-- An order code may be compared as text, once a reader finds its end. -/
theorem comparesOn_of_orderCodeOn [Ord γ] (h : OrderCodeOn P cmp enc) {skipped : Reader ε γ Unit}
    (hs : DecodesOn P enc (fun _ => ()) skipped) {verdict : List γ → List γ → ℤ}
    (hve : ∀ l m, compare (verdict l m) 0 = compare l m) :
    ComparesOn P cmp enc (do
      let a ← left (consumed skipped)
      let b ← right (consumed skipped)
      return verdict a b) := by
  intro a b ha hb r s
  rw [run_bind_ok (run_left (run_consumed (hs a ha r))), run_bind_ok (run_right (run_consumed (hs b hb s)))]
  refine ⟨verdict (enc a) (enc b), (r, s), rfl, ?_, fun _ => rfl⟩
  rw [hve, h.compare_eq ha hb]

theorem ComparesOn.compareTimes (h : ComparesOn P cmp enc x) (shorter : Ordering) {l m : List α}
    (hlen : l.length = m.length) (hl : ∀ a ∈ l, P a) (hm : ∀ a ∈ m, P a) (r s : List γ) :
    ∃ result rest, (compareTimes x l.length).run (l.flatMap enc ++ r, m.flatMap enc ++ s) = .ok (result, rest) ∧
      compare result 0 = compareSeq cmp shorter l m ∧ (compareSeq cmp shorter l m = .eq → rest = (r, s)) := by
  induction l generalizing m with
  | nil =>
    obtain rfl : m = [] := eq_nil_of_length_eq_zero hlen.symm
    exact ⟨0, (r, s), rfl, rfl, fun _ => rfl⟩
  | cons a l ih =>
    cases m with
    | nil => cases hlen
    | cons b m =>
      have hh := h a b (hl a mem_cons_self) (hm b mem_cons_self) (l.flatMap enc ++ r) (m.flatMap enc ++ s)
      have ht := ih (Nat.succ.inj hlen) (fun c hc => hl c (mem_cons_of_mem a hc))
        (fun c hc => hm c (mem_cons_of_mem b hc))
      simp only [flatMap_cons, append_assoc]
      exact run_firstDifference hh fun _ => ht

end Comparing

section Delimited

variable [DecidableEq γ] [Ord γ] [ReflOrd γ] {P : α → Prop} {cmp : α → α → Ordering} {enc : α → List γ}
  {element : PairReader ε γ ℤ} {verdict : γ → γ → ℤ} {delimiter : γ} {shorter : Ordering}

/-- Every code opens with a letter on one fixed side of the delimiter. -/
def OpensAfter (P : α → Prop) (enc : α → List γ) (delimiter : γ) (shorter : Ordering) : Prop :=
  ∀ a, P a → ∃ letter t, enc a = letter :: t ∧ compare delimiter letter = shorter ∧
    compare letter delimiter = shorter.swap

omit [DecidableEq γ] in
theorem ne_delimiter (hne : shorter ≠ .eq) {letter : γ} (h : compare delimiter letter = shorter) :
    letter ≠ delimiter := by
  rintro rfl
  exact hne (h.symm.trans ReflOrd.compare_self)

section

variable (truncated exhausted : ε) (h : ComparesOn P cmp enc element)
  (hve : ∀ a b, compare (verdict a b) 0 = compare a b) (hne : shorter ≠ .eq)
  (ho : OpensAfter P enc delimiter shorter)
include truncated exhausted h hve hne ho

private theorem run_compareElements (l m : List α) (hl : ∀ a ∈ l, P a) (hm : ∀ a ∈ m, P a) {rounds : ℕ}
    (hr : l.length < rounds) (count : ℕ) (r s : List γ) :
    ∃ result n rest, (compareElements verdict truncated exhausted delimiter element rounds count).run
        (l.flatMap enc ++ delimiter :: r, m.flatMap enc ++ delimiter :: s) = .ok ((result, n), rest) ∧
      compare result 0 = compareSeq cmp shorter l m ∧
      (compareSeq cmp shorter l m = .eq → rest = (r, s) ∧ n = count + l.length) := by
  induction l generalizing m rounds count with
  | nil =>
    obtain ⟨rounds, rfl⟩ := Nat.exists_eq_add_one_of_ne_zero (Nat.ne_zero_of_lt hr)
    cases m with
    | nil =>
      refine ⟨0, count, (r, s), ?_, rfl, fun _ => ⟨rfl, rfl⟩⟩
      rw [compareElements, flatMap_nil, nil_append, nil_append,
        run_bind_ok (run_left (run_peek ..)), run_bind_ok (run_right (run_peek ..)), if_pos (.inl rfl),
        if_neg (not_not_intro rfl), run_bind_ok (run_left (run_next ..)), run_bind_ok (run_right (run_next ..))]
      rfl
    | cons b m =>
      obtain ⟨letter, t, hco, hlt, -⟩ := ho b (hm b mem_cons_self)
      refine ⟨verdict delimiter letter, count, (delimiter :: r, (b :: m).flatMap enc ++ delimiter :: s), ?_,
        (hve _ _).trans hlt, fun heq => absurd heq hne⟩
      rw [compareElements, flatMap_nil, nil_append, flatMap_cons, hco, cons_append,
        cons_append, run_bind_ok (run_left (run_peek ..)), run_bind_ok (run_right (run_peek ..)),
        if_pos (.inl rfl), if_pos (ne_delimiter hne hlt).symm]
      rfl
  | cons a l ih =>
    obtain ⟨rounds, rfl⟩ := Nat.exists_eq_add_one_of_ne_zero (Nat.ne_zero_of_lt hr)
    obtain ⟨letter, t, hco, hlt, hgt⟩ := ho a (hl a mem_cons_self)
    have hlet := ne_delimiter hne hlt
    cases m with
    | nil =>
      refine ⟨verdict letter delimiter, count, ((a :: l).flatMap enc ++ delimiter :: r, delimiter :: s), ?_,
        (hve _ _).trans hgt, fun heq => ?_⟩
      · rw [compareElements, flatMap_nil, nil_append, flatMap_cons, hco, cons_append,
          cons_append, run_bind_ok (run_left (run_peek ..)), run_bind_ok (run_right (run_peek ..)),
          if_pos (.inr rfl), if_pos hlet]
        rfl
      · exact absurd (Ordering.swap_eq_eq.mp heq) hne
    | cons b m =>
      obtain ⟨letter', t', hcod', hlt', -⟩ := ho b (hm b mem_cons_self)
      have hlett' := ne_delimiter hne hlt'
      obtain ⟨result, rest, hru, hs, hre⟩ := h a b (hl a mem_cons_self) (hm b mem_cons_self)
        (l.flatMap enc ++ delimiter :: r) (m.flatMap enc ++ delimiter :: s)
      have hp : (left (peek truncated)).run
          (enc a ++ (l.flatMap enc ++ delimiter :: r), enc b ++ (m.flatMap enc ++ delimiter :: s)) =
            .ok (letter, enc a ++ (l.flatMap enc ++ delimiter :: r), enc b ++ (m.flatMap enc ++ delimiter :: s)) := by
        rw [hco]
        rfl
      have hp' : (right (peek truncated)).run
          (enc a ++ (l.flatMap enc ++ delimiter :: r), enc b ++ (m.flatMap enc ++ delimiter :: s)) =
            .ok (letter', enc a ++ (l.flatMap enc ++ delimiter :: r), enc b ++ (m.flatMap enc ++ delimiter :: s)) := by
        rw [hcod']
        rfl
      rw [flatMap_cons, flatMap_cons, append_assoc, append_assoc, compareElements,
        run_bind_ok hp, run_bind_ok hp', if_neg (not_or.mpr ⟨hlet, hlett'⟩), run_bind_ok hru,
        compareSeq_cons]
      by_cases hz : result = 0
      · have hf : cmp a b = .eq := by rw [← hs, hz]; rfl
        obtain ⟨result', n, rest', hru', hsi', hre'⟩ := ih m (fun c hc => hl c (mem_cons_of_mem a hc))
          (fun c hc => hm c (mem_cons_of_mem b hc)) (Nat.lt_of_succ_lt_succ hr) (count + 1)
        rw [if_neg (not_not_intro hz), hre hf, hf]
        refine ⟨result', n, rest', hru', hsi', fun heq => ?_⟩
        obtain ⟨hd, hn⟩ := hre' heq
        exact ⟨hd, by rw [hn, length_cons]; omega⟩
      · have hf : cmp a b ≠ .eq := by
          rw [← hs]
          exact fun heq => hz (Int.compare_eq_eq.mp heq)
        rw [if_pos hz]
        refine ⟨result, count, rest, rfl, ?_, fun heq => absurd (Ordering.then_eq_eq.mp heq).1 hf⟩
        rw [hs]
        revert hf
        cases cmp a b <;> simp

theorem ComparesOn.compareUntil {l m : List α} (hl : ∀ a ∈ l, P a) (hm : ∀ a ∈ m, P a) (r s : List γ) :
    ∃ result n rest, (compareUntil verdict truncated exhausted delimiter element).run
        (l.flatMap enc ++ delimiter :: r, m.flatMap enc ++ delimiter :: s) = .ok ((result, n), rest) ∧
      compare result 0 = compareSeq cmp shorter l m ∧
      (compareSeq cmp shorter l m = .eq → rest = (r, s) ∧ n = l.length) := by
  have hlen : l.length ≤ (l.flatMap enc).length := by
    refine length_le_flatMap fun a ha => ?_
    obtain ⟨letter, t, hc, -⟩ := ho a (hl a ha)
    rw [hc]
    exact cons_ne_nil letter t
  have hro : l.length < (l.flatMap enc ++ delimiter :: r).length + 1 := by
    rw [length_append]
    omega
  have hr := run_compareElements truncated exhausted h hve hne ho l m hl hm hro 0 r s
  rw [Nat.zero_add] at hr
  exact hr

end

end Delimited

end Bolt.Lib.Readers
