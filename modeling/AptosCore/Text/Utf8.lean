import Mathlib

/-!
# Byte-indexed UTF-8 text

A text is the list of its characters, and positions into it are byte offsets, as for a Rust
`str`. Splitting, slicing and range replacement succeed only at character boundaries inside the
text and are `none` where the Rust operation panics; the searches return byte offsets.

Splitting, slicing and replacing are each characterised by one lemma on an explicit
decomposition of the text (`splitAt?_eq_some_iff`, `slice?_eq_some_iff`,
`replaceRange?_eq_some_iff`); later modules use those and never unfold the recursion.
-/

namespace AptosCore.Text

/-- Number of UTF-8 bytes of a text. -/
def byteLen (text : List Char) : Nat := (text.map Char.utf8Size).sum

@[simp] theorem byteLen_nil : byteLen [] = 0 := rfl

@[simp] theorem byteLen_cons (c : Char) (text : List Char) :
    byteLen (c :: text) = c.utf8Size + byteLen text := by
  simp [byteLen]

@[simp] theorem byteLen_append (front back : List Char) :
    byteLen (front ++ back) = byteLen front + byteLen back := by
  simp [byteLen]

theorem byteLen_eq_zero_iff {text : List Char} : byteLen text = 0 ↔ text = [] := by
  cases text with
  | nil => simp
  | cons c rest =>
    have hpos := Char.utf8Size_pos c
    simp only [byteLen_cons, reduceCtorEq, iff_false]
    omega

/-- Rust's `char::is_whitespace`: the Unicode `White_Space` property. -/
def isWhitespace (c : Char) : Bool :=
  c = ' ' || ('\t' ≤ c && c ≤ '\r') || c.val = 0x85 || c.val = 0xA0 || c.val = 0x1680 ||
    (0x2000 ≤ c.val && c.val ≤ 0x200A) || c.val = 0x2028 || c.val = 0x2029 ||
    c.val = 0x202F || c.val = 0x205F || c.val = 0x3000

/-! ## Splitting at a byte offset -/

/-- Split a text at a byte offset, or `none` when the offset is not a character boundary of it
(which includes every offset past its end). -/
def splitAt? : List Char → Nat → Option (List Char × List Char)
  | text, 0 => some ([], text)
  | [], _ + 1 => none
  | c :: rest, index + 1 =>
    if c.utf8Size ≤ index + 1 then
      (splitAt? rest (index + 1 - c.utf8Size)).map fun parts ↦ (c :: parts.1, parts.2)
    else none

@[simp] theorem splitAt?_zero (text : List Char) : splitAt? text 0 = some ([], text) := by
  cases text <;> rfl

@[simp] theorem splitAt?_nil_succ (index : Nat) : splitAt? [] (index + 1) = none := rfl

theorem splitAt?_cons_succ (c : Char) (rest : List Char) (index : Nat) :
    splitAt? (c :: rest) (index + 1) =
      if c.utf8Size ≤ index + 1 then
        (splitAt? rest (index + 1 - c.utf8Size)).map fun parts ↦ (c :: parts.1, parts.2)
      else none := rfl

/-- The one fact about `splitAt?`: it splits exactly where a prefix of the given byte length
ends. -/
theorem splitAt?_eq_some_iff {text front back : List Char} {index : Nat} :
    splitAt? text index = some (front, back) ↔ text = front ++ back ∧ byteLen front = index := by
  induction text generalizing front back index with
  | nil =>
    cases index with
    | zero =>
      simp only [splitAt?_zero, Option.some.injEq, Prod.mk.injEq]
      constructor
      · rintro ⟨rfl, rfl⟩
        simp
      · rintro ⟨htext, -⟩
        obtain ⟨rfl, rfl⟩ := List.append_eq_nil_iff.mp htext.symm
        simp
    | succ index =>
      simp only [splitAt?_nil_succ, reduceCtorEq, false_iff, not_and]
      intro htext
      obtain ⟨rfl, rfl⟩ := List.append_eq_nil_iff.mp htext.symm
      simp
  | cons c rest ih =>
    have hpos := Char.utf8Size_pos c
    cases index with
    | zero =>
      simp only [splitAt?_zero, Option.some.injEq, Prod.mk.injEq]
      constructor
      · rintro ⟨rfl, rfl⟩
        simp
      · rintro ⟨htext, hlen⟩
        obtain rfl := byteLen_eq_zero_iff.mp hlen
        simp [htext]
    | succ index =>
      by_cases hsize : c.utf8Size ≤ index + 1
      · simp only [splitAt?_cons_succ, hsize, if_true, Option.map_eq_some_iff, Prod.exists,
          Prod.mk.injEq]
        constructor
        · rintro ⟨front', back', hsplit, rfl, rfl⟩
          obtain ⟨rfl, hlen⟩ := ih.mp hsplit
          exact ⟨rfl, by simp only [byteLen_cons]; omega⟩
        · rintro ⟨htext, hlen⟩
          cases front with
          | nil => simp at hlen
          | cons d front =>
            simp only [List.cons_append, List.cons.injEq] at htext
            obtain ⟨rfl, rfl⟩ := htext
            simp only [byteLen_cons] at hlen
            exact ⟨front, back, ih.mpr ⟨rfl, by omega⟩, rfl, rfl⟩
      · simp only [splitAt?_cons_succ, hsize, if_false, reduceCtorEq, false_iff, not_and]
        intro htext hlen
        cases front with
        | nil => simp at hlen
        | cons d front =>
          simp only [List.cons_append, List.cons.injEq] at htext
          obtain ⟨rfl, -⟩ := htext
          simp only [byteLen_cons] at hlen
          omega

@[simp] theorem splitAt?_byteLen_append (front back : List Char) :
    splitAt? (front ++ back) (byteLen front) = some (front, back) :=
  splitAt?_eq_some_iff.mpr ⟨rfl, rfl⟩

/-- A byte offset at which a character starts, or the text ends. -/
def IsCharBoundary (text : List Char) (index : Nat) : Prop :=
  (splitAt? text index).isSome

instance (text : List Char) (index : Nat) : Decidable (IsCharBoundary text index) :=
  inferInstanceAs (Decidable ((splitAt? text index).isSome = true))

/-! ## The `str` operations -/

/-- `&text[start..]`. -/
def suffixFrom? (text : List Char) (start : Nat) : Option (List Char) :=
  (splitAt? text start).map Prod.snd

/-- `&text[..stop]`. -/
def prefixTo? (text : List Char) (stop : Nat) : Option (List Char) :=
  (splitAt? text stop).map Prod.fst

/-- `&text[start..stop]`: the Rust slice panics unless `start ≤ stop ≤ len` with both
offsets on character boundaries. -/
def slice? (text : List Char) (start stop : Nat) : Option (List Char) :=
  (prefixTo? text stop).bind fun front ↦ suffixFrom? front start

/-- `String::replace_range(start..stop, replacement)`, which asserts both character boundaries
and panics (in `Vec::splice`) when `start > stop`. -/
def replaceRange? (text : List Char) (start stop : Nat) (replacement : List Char) :
    Option (List Char) :=
  (splitAt? text stop).bind fun parts ↦
    (splitAt? parts.1 start).map fun headParts ↦ headParts.1 ++ replacement ++ parts.2

/-- `str::find`: the byte offset of the first character satisfying `pred`. -/
def findByte? (pred : Char → Bool) : List Char → Option Nat
  | [] => none
  | c :: rest => if pred c then some 0 else (findByte? pred rest).map (c.utf8Size + ·)

/-- `str::rfind`: the byte offset at which the last character satisfying `pred` starts. -/
def rfindByte? (pred : Char → Bool) : List Char → Option Nat
  | [] => none
  | c :: rest =>
    match rfindByte? pred rest with
    | some index => some (c.utf8Size + index)
    | none => if pred c then some 0 else none

@[simp] theorem findByte?_nil (pred : Char → Bool) : findByte? pred [] = none := rfl

theorem findByte?_cons (pred : Char → Bool) (c : Char) (rest : List Char) :
    findByte? pred (c :: rest) =
      if pred c then some 0 else (findByte? pred rest).map (c.utf8Size + ·) := rfl

@[simp] theorem rfindByte?_nil (pred : Char → Bool) : rfindByte? pred [] = none := rfl

theorem suffixFrom?_eq_some_iff {text suffix : List Char} {start : Nat} :
    suffixFrom? text start = some suffix ↔
      ∃ front, text = front ++ suffix ∧ byteLen front = start := by
  simp [suffixFrom?, splitAt?_eq_some_iff]

theorem prefixTo?_eq_some_iff {text front : List Char} {stop : Nat} :
    prefixTo? text stop = some front ↔
      ∃ back, text = front ++ back ∧ byteLen front = stop := by
  simp [prefixTo?, splitAt?_eq_some_iff]

theorem slice?_eq_some_iff {text middle : List Char} {start stop : Nat} :
    slice? text start stop = some middle ↔
      ∃ head back, text = head ++ middle ++ back ∧ byteLen head = start ∧
        byteLen head + byteLen middle = stop := by
  simp only [slice?, Option.bind_eq_some_iff, prefixTo?_eq_some_iff, suffixFrom?_eq_some_iff]
  constructor
  · rintro ⟨front, ⟨back, rfl, rfl⟩, head, rfl, rfl⟩
    exact ⟨head, back, by simp, rfl, by simp⟩
  · rintro ⟨head, back, rfl, rfl, rfl⟩
    exact ⟨head ++ middle, ⟨back, rfl, by simp⟩, head, rfl, rfl⟩

theorem le_of_slice?_eq_some {text middle : List Char} {start stop : Nat}
    (hslice : slice? text start stop = some middle) : start ≤ stop := by
  obtain ⟨head, back, -, rfl, rfl⟩ := slice?_eq_some_iff.mp hslice
  omega

theorem replaceRange?_eq_some_iff {text replacement result : List Char} {start stop : Nat} :
    replaceRange? text start stop replacement = some result ↔
      ∃ head middle back, text = head ++ middle ++ back ∧ byteLen head = start ∧
        byteLen head + byteLen middle = stop ∧ result = head ++ replacement ++ back := by
  simp only [replaceRange?, Option.bind_eq_some_iff, Option.map_eq_some_iff, Prod.exists,
    splitAt?_eq_some_iff]
  constructor
  · rintro ⟨front, back, ⟨rfl, rfl⟩, head, middle, ⟨rfl, rfl⟩, rfl⟩
    exact ⟨head, middle, back, by simp, rfl, by simp, rfl⟩
  · rintro ⟨head, middle, back, rfl, rfl, rfl, rfl⟩
    exact ⟨head ++ middle, back, ⟨rfl, by simp⟩, head, middle, ⟨rfl, rfl⟩, rfl⟩

/-- Two replacements of one range agree only when the replacements do. -/
theorem replaceRange?_injective {text first second firstResult secondResult : List Char}
    {start stop : Nat}
    (hfirst : replaceRange? text start stop first = some firstResult)
    (hsecond : replaceRange? text start stop second = some secondResult)
    (hsame : firstResult = secondResult) : first = second := by
  obtain ⟨head, middle, back, htext, hstart, hstop, rfl⟩ := replaceRange?_eq_some_iff.mp hfirst
  obtain ⟨head', middle', back', htext', hstart', hstop', rfl⟩ :=
    replaceRange?_eq_some_iff.mp hsecond
  have hhead : head = head' := by
    have h1 := splitAt?_eq_some_iff.mpr ⟨(htext.trans (List.append_assoc _ _ _)), hstart⟩
    have h2 := splitAt?_eq_some_iff.mpr ⟨(htext'.trans (List.append_assoc _ _ _)), hstart'⟩
    rw [h1] at h2
    exact (Prod.mk.inj (Option.some.inj h2)).1
  have hback : back = back' := by
    have h1 := splitAt?_eq_some_iff.mpr ⟨htext, (byteLen_append head middle).trans hstop⟩
    have h2 := splitAt?_eq_some_iff.mpr ⟨htext', (byteLen_append head' middle').trans hstop'⟩
    rw [h1] at h2
    exact (Prod.mk.inj (Option.some.inj h2)).2
  subst hhead hback
  simpa using hsame

/-- Replacing a range by the very text it holds gives the text back. -/
theorem replaceRange?_self {text middle : List Char} {start stop : Nat}
    (hslice : slice? text start stop = some middle) :
    replaceRange? text start stop middle = some text := by
  obtain ⟨head, back, htext, hstart, hstop⟩ := slice?_eq_some_iff.mp hslice
  exact replaceRange?_eq_some_iff.mpr ⟨head, middle, back, htext, hstart, hstop, htext⟩

/-- A replacement changes the text exactly when the replaced range held other text. -/
theorem replaceRange?_eq_self_iff {text middle replacement result : List Char} {start stop : Nat}
    (hslice : slice? text start stop = some middle)
    (hresult : replaceRange? text start stop replacement = some result) :
    result = text ↔ replacement = middle :=
  ⟨fun hsame ↦ replaceRange?_injective hresult (replaceRange?_self hslice) hsame,
    fun hsame ↦ by rw [hsame, replaceRange?_self hslice] at hresult; exact (Option.some.inj hresult).symm⟩

end AptosCore.Text
