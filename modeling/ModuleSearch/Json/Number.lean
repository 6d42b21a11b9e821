/-!
# JSON numbers

A number literal is an optional minus sign, an integer without leading zeros, and optionally a
fraction and an exponent. `isFinite` says whether a reader that computes in double precision
gets a finite value: it takes as many leading digits as fit in 64 bits for the significand,
rounds it to a double and multiplies it by the double next to the power of ten.
-/

namespace ModuleSearch.Json.Number

structure Exponent where
  /-- The letter that starts it. -/
  mark : Char
  sign : Option Char
  digits : List Char
  deriving DecidableEq, Repr

structure Literal where
  negative : Bool
  integer : List Char
  /-- The digits after the point. -/
  fraction : Option (List Char)
  exponent : Option Exponent
  deriving DecidableEq, Repr

def digitValue (c : Char) : Nat := c.toNat - 48

/-- A greater exponent counts as this one. -/
def exponentBound : Nat := 1 <<< 31

def Exponent.magnitude (e : Exponent) : Nat :=
  e.digits.foldl (fun n c => min (10 * n + digitValue c) exponentBound) 0

def Exponent.value (e : Exponent) : Int :=
  if e.sign = some '-' then -(e.magnitude : Int) else e.magnitude

def Exponent.text (e : Exponent) : List Char := e.mark :: (e.sign.toList ++ e.digits)

def signText (negative : Bool) : List Char := if negative then ['-'] else []

def fractionText : Option (List Char) → List Char
  | none => []
  | some digits => '.' :: digits

def exponentText : Option Exponent → List Char
  | none => []
  | some e => e.text

def Literal.text (l : Literal) : List Char :=
  signText l.negative ++ (l.integer ++ (fractionText l.fraction ++ exponentText l.exponent))

/-- Appends digits to a significand while it fits in 64 bits; gives the digits that did not. -/
def appendDigits (significand : Nat) : List Char → Nat × List Char
  | [] => (significand, [])
  | d :: rest =>
    let next := 10 * significand + digitValue d
    if next < 1 <<< 64 then appendDigits next rest else (significand, d :: rest)

/-- The integer of at most 53 significant bits next to `n`; a tie goes to the even one. -/
def nearestDouble (n : Nat) : Nat :=
  let unit := 1 <<< (n.log2 - 52)
  let quotient := n / unit
  let remainder := n % unit
  if 2 * remainder > unit || (2 * remainder == unit && quotient % 2 == 1) then
    (quotient + 1) * unit
  else quotient * unit

/-- From here on a product is rounded to infinity. -/
def overflowBound : Nat := (1 <<< 1024) - (1 <<< 970)

/-- Significand and decimal exponent. -/
def scientific (l : Literal) : Nat × Int :=
  let (significand, beyond) := appendDigits 0 l.integer
  let fraction := l.fraction.getD []
  let (significand, dropped) := appendDigits significand fraction
  let exponent := (l.exponent.map Exponent.value).getD 0
  (significand, beyond.length - (fraction.length - dropped.length) + exponent)

def isFinite (l : Literal) : Bool :=
  match scientific l with
  | (significand, .ofNat exponent) =>
    significand == 0 ||
      (exponent ≤ 308 &&
        nearestDouble significand * nearestDouble (Nat.pow 10 exponent) < overflowBound)
  | (_, .negSucc _) => true

def span (text : List Char) : List Char × List Char :=
  (text.takeWhile Char.isDigit, text.dropWhile Char.isDigit)

def integer? (text : List Char) : Option (List Char × List Char) :=
  match span text with
  | ([], _) => none
  | ('0' :: _ :: _, _) => none
  | (digits, rest) => some (digits, rest)

def fraction? : List Char → Option (Option (List Char) × List Char)
  | '.' :: text =>
    match span text with
    | ([], _) => none
    | (digits, rest) => some (some digits, rest)
  | text => some (none, text)

def exponentSign : List Char → Option Char × List Char
  | '+' :: text => (some '+', text)
  | '-' :: text => (some '-', text)
  | text => (none, text)

def exponentDigits? (mark : Char) (sign : Option Char) (text : List Char) :
    Option (Option Exponent × List Char) :=
  match span text with
  | ([], _) => none
  | (digits, rest) => some (some { mark, sign, digits }, rest)

def exponent? : List Char → Option (Option Exponent × List Char)
  | c :: text =>
    if c = 'e' ∨ c = 'E' then exponentDigits? c (exponentSign text).1 (exponentSign text).2
    else some (none, c :: text)
  | [] => some (none, [])

def sign : List Char → Bool × List Char
  | '-' :: text => (true, text)
  | text => (false, text)

/-- The literal at the start of a text and what follows it. -/
def literal? (text : List Char) : Option (Literal × List Char) := do
  let (negative, text) := sign text
  let (integer, text) ← integer? text
  let (fraction, text) ← fraction? text
  let (exponent, text) ← exponent? text
  return ({ negative, integer, fraction, exponent }, text)

theorem span_append (text : List Char) : (span text).1 ++ (span text).2 = text :=
  List.takeWhile_append_dropWhile

theorem sign_append (text : List Char) : signText (sign text).1 ++ (sign text).2 = text := by
  unfold sign
  split <;> rfl

theorem exponentSign_append (text : List Char) :
    (exponentSign text).1.toList ++ (exponentSign text).2 = text := by
  unfold exponentSign
  split <;> rfl

theorem append_of_integer? {text digits rest : List Char}
    (h : integer? text = some (digits, rest)) : digits ≠ [] ∧ digits ++ rest = text := by
  have hs := span_append text
  unfold integer? at h
  split at h
  · cases h
  · cases h
  · rename_i hne _ heq
    obtain ⟨rfl, rfl⟩ := Prod.mk.inj (Option.some.inj h)
    rw [heq] at hs
    exact ⟨hne, hs⟩

theorem append_of_fraction? {text rest : List Char} {digits : Option (List Char)}
    (h : fraction? text = some (digits, rest)) : fractionText digits ++ rest = text := by
  unfold fraction? at h
  split at h
  · rename_i text
    have hs := span_append text
    split at h
    · cases h
    · rename_i heq
      obtain ⟨rfl, rfl⟩ := Prod.mk.inj (Option.some.inj h)
      rw [heq] at hs
      rw [fractionText, List.cons_append, hs]
  · obtain ⟨rfl, rfl⟩ := Prod.mk.inj (Option.some.inj h)
    rfl

theorem append_of_exponentDigits? {mark : Char} {sign : Option Char} {text rest : List Char}
    {e : Option Exponent} (h : exponentDigits? mark sign text = some (e, rest)) :
    exponentText e ++ rest = mark :: (sign.toList ++ text) := by
  have hs := span_append text
  unfold exponentDigits? at h
  split at h
  · cases h
  · rename_i heq
    obtain ⟨rfl, rfl⟩ := Prod.mk.inj (Option.some.inj h)
    rw [heq] at hs
    rw [exponentText, Exponent.text, List.cons_append, List.append_assoc, hs]

theorem append_of_exponent? {text rest : List Char} {e : Option Exponent}
    (h : exponent? text = some (e, rest)) : exponentText e ++ rest = text := by
  unfold exponent? at h
  split at h
  · split at h
    · rw [append_of_exponentDigits? h, exponentSign_append]
    · obtain ⟨rfl, rfl⟩ := Prod.mk.inj (Option.some.inj h)
      rfl
  · obtain ⟨rfl, rfl⟩ := Prod.mk.inj (Option.some.inj h)
    rfl

/-- A literal and what follows it make up the text, and its integer has a digit. -/
theorem append_of_literal? {text rest : List Char} {l : Literal}
    (h : literal? text = some (l, rest)) : l.integer ≠ [] ∧ l.text ++ rest = text := by
  unfold literal? at h
  simp only [Option.bind_eq_bind, Option.bind_eq_some_iff, Prod.exists, Option.pure_def,
    Option.some.injEq, Prod.mk.injEq] at h
  obtain ⟨integer, _, h₁, fraction, _, h₂, exponent, _, h₃, rfl, rfl⟩ := h
  obtain ⟨hne, h₁⟩ := append_of_integer? h₁
  refine ⟨hne, ?_⟩
  simp only [Literal.text, List.append_assoc]
  rw [append_of_exponent? h₃, append_of_fraction? h₂, h₁, sign_append]

/-- A literal is not empty. -/
theorem length_of_literal? {text rest : List Char} {l : Literal}
    (h : literal? text = some (l, rest)) : rest.length < text.length := by
  obtain ⟨hne, rfl⟩ := append_of_literal? h
  have := List.length_pos_iff.2 hne
  simp only [Literal.text, List.length_append]
  omega

end ModuleSearch.Json.Number
