import ModuleSearch.Json.Number
import ModuleSearch.Text.Hex

/-!
# JSON tokens

`tokens?` cuts a text into tokens. Blanks between tokens are dropped. A string token holds the
text that the string stands for: escapes are resolved, two escaped surrogates must form a pair,
and a control character may not stand in a string unescaped. Each reading step leaves a shorter
text, which the lemmas named `length_of_…` say.
-/

namespace ModuleSearch.Json

inductive Token where
  | openArray
  | closeArray
  | openObject
  | closeObject
  | comma
  | colon
  | null
  | bool (value : Bool)
  | number (literal : String)
  | string (value : String)
  deriving DecidableEq, Repr

namespace Token

def isBlank (c : Char) : Bool := c == ' ' || c == '\t' || c == '\n' || c == '\r'

/-- The number that four hexadecimal digits stand for. -/
def codeUnit? : List Char → Option (Nat × List Char)
  | a :: b :: c :: d :: rest => do
    let a ← Text.Hex.value? a
    let b ← Text.Hex.value? b
    let c ← Text.Hex.value? c
    let d ← Text.Hex.value? d
    return (((a * 16 + b) * 16 + c) * 16 + d, rest)
  | _ => none

def isHighSurrogate (n : Nat) : Bool := 0xD800 ≤ n && n < 0xDC00

def isLowSurrogate (n : Nat) : Bool := 0xDC00 ≤ n && n < 0xE000

def pairValue (high low : Nat) : Nat := 0x10000 + (high - 0xD800) * 0x400 + (low - 0xDC00)

/-- What follows a high surrogate: an escaped low one. -/
def lowSurrogate? : List Char → Option (Nat × List Char)
  | '\\' :: 'u' :: rest => (codeUnit? rest).filter fun low => isLowSurrogate low.1
  | _ => none

/-- The character of an escape by number. -/
def numbered? (text : List Char) : Option (Char × List Char) :=
  match codeUnit? text with
  | none => none
  | some (n, rest) =>
    if isHighSurrogate n then
      (lowSurrogate? rest).map fun low => (Char.ofNat (pairValue n low.1), low.2)
    else if isLowSurrogate n then none
    else some (Char.ofNat n, rest)

def lettered? : Char → Option Char
  | '"' => some '"'
  | '\\' => some '\\'
  | '/' => some '/'
  | 'b' => some '\x08'
  | 'f' => some '\x0c'
  | 'n' => some '\n'
  | 'r' => some '\r'
  | 't' => some '\t'
  | _ => none

/-- The character of an escape, after its backslash. -/
def escape? : List Char → Option (Char × List Char)
  | [] => none
  | 'u' :: rest => numbered? rest
  | c :: rest => (lettered? c).map fun c => (c, rest)

theorem length_of_codeUnit? {text rest : List Char} {n : Nat}
    (h : codeUnit? text = some (n, rest)) : rest.length < text.length := by
  unfold codeUnit? at h
  split at h
  · simp only [Option.bind_eq_bind, Option.bind_eq_some_iff, Option.pure_def, Option.some.injEq,
      Prod.mk.injEq] at h
    obtain ⟨_, _, _, _, _, _, _, _, _, rfl⟩ := h
    simp only [List.length_cons]
    omega
  · cases h

theorem length_of_lowSurrogate? {text rest : List Char} {n : Nat}
    (h : lowSurrogate? text = some (n, rest)) : rest.length < text.length := by
  unfold lowSurrogate? at h
  split at h
  · rw [Option.filter_eq_some_iff] at h
    have := length_of_codeUnit? h.1
    simp only [List.length_cons]
    omega
  · cases h

theorem length_of_numbered? {text rest : List Char} {c : Char}
    (h : numbered? text = some (c, rest)) : rest.length < text.length := by
  unfold numbered? at h
  split at h
  · cases h
  · rename_i hn
    have := length_of_codeUnit? hn
    split at h
    · obtain ⟨⟨low, _⟩, hlow, hr⟩ := Option.map_eq_some_iff.1 h
      simp only [Prod.mk.injEq] at hr
      obtain ⟨_, rfl⟩ := hr
      have := length_of_lowSurrogate? hlow
      omega
    · split at h
      · cases h
      · obtain ⟨_, rfl⟩ := Prod.mk.inj (Option.some.inj h)
        exact this

theorem length_of_escape? {text rest : List Char} {c : Char}
    (h : escape? text = some (c, rest)) : rest.length < text.length := by
  unfold escape? at h
  split at h
  · cases h
  · have := length_of_numbered? h
    simp only [List.length_cons]
    omega
  · obtain ⟨_, _, hr⟩ := Option.map_eq_some_iff.1 h
    simp only [Prod.mk.injEq] at hr
    obtain ⟨_, rfl⟩ := hr
    simp

/-- The characters up to the closing quote, and what follows it. -/
def stringBody? (text : List Char) : Option (List Char × List Char) :=
  match text with
  | [] => none
  | '"' :: rest => some ([], rest)
  | '\\' :: rest =>
    match _h : escape? rest with
    | none => none
    | some (c, rest) => (stringBody? rest).map fun body => (c :: body.1, body.2)
  | c :: rest =>
    if c.toNat < 32 then none else (stringBody? rest).map fun body => (c :: body.1, body.2)
termination_by text.length
decreasing_by
  · have := length_of_escape? _h
    simp only [List.length_cons]
    omega
  · simp

theorem length_of_stringBody? {text body rest : List Char}
    (h : stringBody? text = some (body, rest)) : rest.length < text.length := by
  fun_induction stringBody? text generalizing body with
  | case1 => cases h
  | case2 rest =>
    obtain ⟨_, rfl⟩ := Prod.mk.inj (Option.some.inj h)
    simp
  | case3 => cases h
  | case4 rest c rest' hc ih =>
    obtain ⟨⟨b, r⟩, hb, hr⟩ := Option.map_eq_some_iff.1 h
    simp only [Prod.mk.injEq] at hr
    obtain ⟨_, rfl⟩ := hr
    have := ih hb
    have := length_of_escape? hc
    simp only [List.length_cons]
    omega
  | case5 => cases h
  | case6 c rest _ _ _ ih =>
    obtain ⟨⟨b, r⟩, hb, hr⟩ := Option.map_eq_some_iff.1 h
    simp only [Prod.mk.injEq] at hr
    obtain ⟨_, rfl⟩ := hr
    have := ih hb
    simp only [List.length_cons]
    omega

def punctuation? : Char → Option Token
  | '[' => some openArray
  | ']' => some closeArray
  | '\x7b' => some openObject
  | '\x7d' => some closeObject
  | ',' => some comma
  | ':' => some colon
  | _ => none

def word? : List Char → Option (Token × List Char)
  | 'n' :: 'u' :: 'l' :: 'l' :: rest => some (null, rest)
  | 't' :: 'r' :: 'u' :: 'e' :: rest => some (bool true, rest)
  | 'f' :: 'a' :: 'l' :: 's' :: 'e' :: rest => some (bool false, rest)
  | _ => none

/-- A number whose double is finite. -/
def number? (text : List Char) : Option (Token × List Char) :=
  match Number.literal? text with
  | none => none
  | some (literal, rest) =>
    if Number.isFinite literal then some (number (String.ofList literal.text), rest) else none

/-- The token at the start of a text that does not start with a blank. -/
def next? (text : List Char) : Option (Token × List Char) :=
  match text with
  | [] => none
  | '"' :: rest => (stringBody? rest).map fun body => (string (String.ofList body.1), body.2)
  | c :: rest =>
    match punctuation? c with
    | some token => some (token, rest)
    | none =>
      if c == '-' || c.isDigit then number? (c :: rest) else word? (c :: rest)

theorem length_of_word? {text rest : List Char} {token : Token}
    (h : word? text = some (token, rest)) : rest.length < text.length := by
  unfold word? at h
  split at h
  case h_4 => cases h
  all_goals
    obtain ⟨_, rfl⟩ := Prod.mk.inj (Option.some.inj h)
    simp only [List.length_cons]
    omega

theorem length_of_number? {text rest : List Char} {token : Token}
    (h : number? text = some (token, rest)) : rest.length < text.length := by
  unfold number? at h
  split at h
  · cases h
  · rename_i hl
    split at h
    · obtain ⟨_, rfl⟩ := Prod.mk.inj (Option.some.inj h)
      exact Number.length_of_literal? hl
    · cases h

theorem length_of_next? {text rest : List Char} {token : Token}
    (h : next? text = some (token, rest)) : rest.length < text.length := by
  unfold next? at h
  split at h
  · cases h
  · obtain ⟨⟨_, _⟩, hb, hr⟩ := Option.map_eq_some_iff.1 h
    simp only [Prod.mk.injEq] at hr
    obtain ⟨_, rfl⟩ := hr
    have := length_of_stringBody? hb
    simp only [List.length_cons]
    omega
  · split at h
    · obtain ⟨_, rfl⟩ := Prod.mk.inj (Option.some.inj h)
      simp
    · split at h
      · exact length_of_number? h
      · exact length_of_word? h

/-- All tokens of a text, if it consists of tokens and blanks. -/
def tokens? (text : List Char) : Option (List Token) :=
  match text with
  | [] => some []
  | c :: rest =>
    if isBlank c then tokens? rest
    else
      match _h : next? (c :: rest) with
      | none => none
      | some (token, rest) => (tokens? rest).map (token :: ·)
termination_by text.length
decreasing_by
  · simp
  · exact length_of_next? _h

end Token

end ModuleSearch.Json
