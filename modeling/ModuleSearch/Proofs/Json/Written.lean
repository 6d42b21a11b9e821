import ModuleSearch.Json.Reader

/-!
# Reading what was written

A value without numbers that is not too deep is read back from the text that `Json.pretty` writes:
`parse?_pretty`. The text is cut into the tokens of the value (`tokens?_prettyAt`), and the reader
gets the value from its tokens (`run_tokensOf`).
-/

namespace ModuleSearch.Json

/-- No numbers occur, and at most so many arrays and objects lie inside one another. -/
inductive Plain : Nat → Json → Prop
  | null {depth : Nat} : Plain depth null
  | bool {depth : Nat} (value : Bool) : Plain depth (bool value)
  | string {depth : Nat} (value : String) : Plain depth (string value)
  | array {depth : Nat} {items : List Json} (h : ∀ v ∈ items, Plain depth v) :
      Plain (depth + 1) (array items)
  | object {depth : Nat} {members : List (String × Json)} (h : ∀ m ∈ members, Plain depth m.2) :
      Plain (depth + 1) (object members)

mutual

/-- The tokens of a value. -/
def tokensOf : Json → List Token
  | null => [.null]
  | bool value => [.bool value]
  | number literal => [.number literal]
  | string value => [.string value]
  | array [] => [.openArray, .closeArray]
  | array (v :: rest) => .openArray :: (tokensOf v ++ tokensOfItems rest)
  | object [] => [.openObject, .closeObject]
  | object ((k, v) :: rest) =>
    .openObject :: .string k :: .colon :: (tokensOf v ++ tokensOfMembers rest)

/-- The tokens of the items after the first one, and of the end of the array. -/
def tokensOfItems : List Json → List Token
  | [] => [.closeArray]
  | v :: rest => .comma :: (tokensOf v ++ tokensOfItems rest)

def tokensOfMembers : List (String × Json) → List Token
  | [] => [.closeObject]
  | (k, v) :: rest => .comma :: .string k :: .colon :: (tokensOf v ++ tokensOfMembers rest)

end

/-! ## The tokens of a text -/

namespace Token

variable {text rest : List Char} {token : Token} {c : Char}

theorem tokens?_blank (h : isBlank c = true) (rest : List Char) :
    tokens? (c :: rest) = tokens? rest := by
  rw [tokens?, if_pos h]

theorem tokens?_token (hblank : isBlank c = false) (h : next? (c :: text) = some (token, rest)) :
    tokens? (c :: text) = (tokens? rest).map (token :: ·) := by
  rw [tokens?, if_neg (by simp [hblank])]
  split
  · rename_i hnone
    rw [h] at hnone
    cases hnone
  · rename_i hsome
    rw [h] at hsome
    obtain ⟨rfl, rfl⟩ := Prod.mk.inj (Option.some.inj hsome)
    rfl

theorem tokens?_punctuation (h : punctuation? c = some token) (rest : List Char) :
    tokens? (c :: rest) = (tokens? rest).map (token :: ·) := by
  have hnext : next? (c :: rest) = some (token, rest) := by
    rw [next?]
    · rw [h]
    · rintro rfl
      cases h
  refine tokens?_token ?_ hnext
  unfold punctuation? at h
  split at h
  all_goals first | rfl | cases h

/-! ### Strings -/

theorem numbered?_control (h : c.toNat < 32) (rest : List Char) :
    numbered? ('0' :: '0' :: Text.Hex.lowerDigit (c.toNat / 16) ::
      Text.Hex.lowerDigit (c.toNat % 16) :: rest) = some (c, rest) := by
  have hzero : Text.Hex.value? '0' = some 0 := by decide
  have hhigh := Text.Hex.value?_lowerDigit (n := c.toNat / 16) (by omega)
  have hlow := Text.Hex.value?_lowerDigit (n := c.toNat % 16) (by omega)
  have hunit : codeUnit? ('0' :: '0' :: Text.Hex.lowerDigit (c.toNat / 16) ::
      Text.Hex.lowerDigit (c.toNat % 16) :: rest) = some (c.toNat, rest) := by
    have hvalue : ((0 * 16 + 0) * 16 + c.toNat / 16) * 16 + c.toNat % 16 = c.toNat := by omega
    simp only [codeUnit?, hzero, hhigh, hlow, Option.bind_eq_bind, Option.bind_some, hvalue]
    rfl
  have hnotHigh : isHighSurrogate c.toNat = false := by
    rw [isHighSurrogate, Bool.and_eq_false_iff]
    exact .inl (decide_eq_false (by omega))
  have hnotLow : isLowSurrogate c.toNat = false := by
    rw [isLowSurrogate, Bool.and_eq_false_iff]
    exact .inl (decide_eq_false (by omega))
  rw [numbered?, hunit]
  simp [hnotHigh, hnotLow]

/-- A character stands for itself, or is escaped in a way that is understood. -/
theorem escape?_escapeChar (c : Char) (rest : List Char) :
    (∃ tail, escapeChar c = '\\' :: tail ∧ escape? (tail ++ rest) = some (c, rest)) ∨
      (escapeChar c = [c] ∧ c ≠ '"' ∧ c ≠ '\\' ∧ ¬ c.toNat < 32) := by
  unfold escapeChar
  split
  · exact .inl ⟨_, rfl, rfl⟩
  · exact .inl ⟨_, rfl, rfl⟩
  · exact .inl ⟨_, rfl, rfl⟩
  · exact .inl ⟨_, rfl, rfl⟩
  · exact .inl ⟨_, rfl, rfl⟩
  · exact .inl ⟨_, rfl, rfl⟩
  · exact .inl ⟨_, rfl, rfl⟩
  · split
    · rename_i hcontrol
      exact .inl ⟨_, rfl, numbered?_control hcontrol rest⟩
    · rename_i hprintable
      exact .inr ⟨rfl, by assumption, by assumption, hprintable⟩

theorem stringBody?_escaped (body rest : List Char) :
    stringBody? (body.flatMap escapeChar ++ '"' :: rest) = some (body, rest) := by
  induction body with
  | nil =>
      rw [List.flatMap_nil, List.nil_append, stringBody?]
  | cons c body ih =>
      rw [List.flatMap_cons, List.append_assoc]
      obtain ⟨tail, hescape, hread⟩ | ⟨hescape, hquote, hbackslash, hprintable⟩ :=
        escape?_escapeChar c (body.flatMap escapeChar ++ '"' :: rest)
      · rw [hescape, List.cons_append, stringBody?]
        split
        · rename_i hnone
          rw [hread] at hnone
          cases hnone
        · rename_i hsome
          rw [hread] at hsome
          obtain ⟨rfl, rfl⟩ := Prod.mk.inj (Option.some.inj hsome)
          rw [ih]
          rfl
      · rw [hescape, List.singleton_append, stringBody?]
        · rw [if_neg hprintable, ih]
          rfl
        · exact hquote
        · exact hbackslash

theorem tokens?_quote (value : String) (rest : List Char) :
    tokens? ((quote value).toList ++ rest) = (tokens? rest).map (.string value :: ·) := by
  have htext : (quote value).toList ++ rest =
      '"' :: (value.toList.flatMap escapeChar ++ '"' :: rest) := by
    simp [quote]
  rw [htext]
  refine tokens?_token (by decide) ?_
  rw [next?, stringBody?_escaped, Option.map_some, String.ofList_toList]

theorem tokens?_newline (level : Nat) (rest : List Char) :
    tokens? ((newline level).toList ++ rest) = tokens? rest := by
  have hblanks : ∀ n, tokens? (List.replicate n ' ' ++ rest) = tokens? rest := by
    intro n
    induction n with
    | zero => rfl
    | succ n ih => rw [List.replicate_succ, List.cons_append, tokens?_blank (by decide), ih]
  have htext : (newline level).toList ++ rest =
      '\n' :: (List.replicate (2 * level) ' ' ++ rest) := by
    simp [newline]
  rw [htext, tokens?_blank (by decide), hblanks]

end Token

open Token

/-- The text of a value is cut into the tokens of the value. -/
def Cuts (v : Json) : Prop := ∀ (level : Nat) (rest : List Char),
  tokens? ((v.prettyAt level).toList ++ rest) = (tokens? rest).map (v.tokensOf ++ ·)

theorem tokens?_prettyItems {items : List Json} (h : ∀ v ∈ items, v.Cuts) (inner outer : Nat)
    (rest : List Char) :
    tokens? ((prettyItems inner items).toList ++ ((newline outer).toList ++ (']' :: rest))) =
      (tokens? rest).map (tokensOfItems items ++ ·) := by
  induction items with
  | nil =>
      rw [prettyItems, String.toList_empty, List.nil_append, tokens?_newline,
        tokens?_punctuation rfl]
      rfl
  | cons v items ih =>
      obtain ⟨hv, hitems⟩ := List.forall_mem_cons.mp h
      have htext : (prettyItems inner (v :: items)).toList = ',' :: ((newline inner).toList ++
          ((v.prettyAt inner).toList ++ (prettyItems inner items).toList)) := by
        simp [prettyItems]
      rw [htext, List.cons_append, List.append_assoc, List.append_assoc, tokens?_punctuation rfl,
        tokens?_newline, hv, ih hitems, Option.map_map, Option.map_map]
      simp [Function.comp_def, tokensOfItems]

theorem tokens?_prettyMembers {members : List (String × Json)} (h : ∀ m ∈ members, m.2.Cuts)
    (inner outer : Nat) (rest : List Char) :
    tokens? ((prettyMembers inner members).toList ++
        ((newline outer).toList ++ ('\x7d' :: rest))) =
      (tokens? rest).map (tokensOfMembers members ++ ·) := by
  induction members with
  | nil =>
      rw [prettyMembers, String.toList_empty, List.nil_append, tokens?_newline,
        tokens?_punctuation rfl]
      rfl
  | cons m members ih =>
      obtain ⟨key, v⟩ := m
      obtain ⟨hv, hmembers⟩ := List.forall_mem_cons.mp h
      have htext : (prettyMembers inner ((key, v) :: members)).toList =
          ',' :: ((newline inner).toList ++ ((quote key).toList ++ (':' :: ' ' ::
            ((v.prettyAt inner).toList ++ (prettyMembers inner members).toList)))) := by
        simp [prettyMembers]
      rw [htext, List.cons_append, List.append_assoc, List.append_assoc, List.cons_append,
        List.cons_append, List.append_assoc, tokens?_punctuation rfl, tokens?_newline,
        tokens?_quote, tokens?_punctuation rfl, tokens?_blank (by decide), hv, ih hmembers,
        Option.map_map, Option.map_map, Option.map_map, Option.map_map]
      simp [Function.comp_def, tokensOfMembers]

/-- A value without numbers is cut into its tokens, whatever comes after it. -/
theorem cuts_of_plain {depth : Nat} {v : Json} (h : Plain depth v) : v.Cuts := by
  intro level rest
  induction h generalizing level rest with
  | null =>
      have htext : (prettyAt level null).toList ++ rest = 'n' :: 'u' :: 'l' :: 'l' :: rest := by
        simp [prettyAt]
      rw [htext]
      exact tokens?_token (by decide) rfl
  | bool value =>
      cases value with
      | false =>
          have htext : (prettyAt level (bool false)).toList ++ rest =
              'f' :: 'a' :: 'l' :: 's' :: 'e' :: rest := by
            simp [prettyAt]
          rw [htext]
          exact tokens?_token (by decide) rfl
      | true =>
          have htext : (prettyAt level (bool true)).toList ++ rest =
              't' :: 'r' :: 'u' :: 'e' :: rest := by
            simp [prettyAt]
          rw [htext]
          exact tokens?_token (by decide) rfl
  | string value =>
      rw [prettyAt, tokens?_quote]
      rfl
  | @array depth items h ih =>
      cases items with
      | nil =>
          have htext : (prettyAt level (array [])).toList ++ rest = '[' :: ']' :: rest := by
            simp [prettyAt]
          rw [htext, tokens?_punctuation rfl, tokens?_punctuation rfl, Option.map_map]
          rfl
      | cons v items =>
          obtain ⟨hv, hitems⟩ := List.forall_mem_cons.mp ih
          have htext : (prettyAt level (array (v :: items))).toList ++ rest =
              '[' :: ((newline (level + 1)).toList ++ ((v.prettyAt (level + 1)).toList ++
                ((prettyItems (level + 1) items).toList ++
                  ((newline level).toList ++ (']' :: rest))))) := by
            simp [prettyAt]
          rw [htext, tokens?_punctuation rfl, tokens?_newline, hv, tokens?_prettyItems hitems,
            Option.map_map, Option.map_map]
          simp [Function.comp_def, tokensOf]
  | @object depth members h ih =>
      cases members with
      | nil =>
          have htext : (prettyAt level (object [])).toList ++ rest = '\x7b' :: '\x7d' :: rest := by
            simp [prettyAt]
          rw [htext, tokens?_punctuation rfl, tokens?_punctuation rfl, Option.map_map]
          rfl
      | cons m members =>
          obtain ⟨key, v⟩ := m
          obtain ⟨hv, hmembers⟩ := List.forall_mem_cons.mp ih
          have htext : (prettyAt level (object ((key, v) :: members))).toList ++ rest =
              '\x7b' :: ((newline (level + 1)).toList ++ ((quote key).toList ++ (':' :: ' ' ::
                ((v.prettyAt (level + 1)).toList ++ ((prettyMembers (level + 1) members).toList ++
                  ((newline level).toList ++ ('\x7d' :: rest))))))) := by
            simp [prettyAt]
          rw [htext, tokens?_punctuation rfl, tokens?_newline, tokens?_quote,
            tokens?_punctuation rfl, tokens?_blank (by decide), hv, tokens?_prettyMembers hmembers,
            Option.map_map, Option.map_map, Option.map_map, Option.map_map]
          simp [Function.comp_def, tokensOf]

/-! ## The value of tokens -/

namespace Reader

variable {outer : List Frame} {rest : List Token} {v : Json}

theorem step_firstItem {token : Token} (h : token ≠ .closeArray) (outer : List Frame) :
    step (.firstItem outer) token = beginValue (.array [] :: outer) token := by
  cases token <;> first | rfl | exact absurd rfl h

/-- The tokens of a value start one, and when they are read the value is given away. -/
def Reads (outer : List Frame) (v : Json) : Prop :=
  ∃ token rest, v.tokensOf = token :: rest ∧ token ≠ .closeArray ∧
    ((beginValue outer token).bind fun state => run state rest) = some (place outer v)

theorem Reads.run_value (h : Reads outer v) (rest : List Token) :
    run (.value outer) (v.tokensOf ++ rest) = run (place outer v) rest := by
  obtain ⟨token, tail, htokens, -, hread⟩ := h
  rw [run_append, htokens, run]
  change (((beginValue outer token).bind _).bind _) = _
  rw [hread, Option.bind_some]

theorem Reads.run_firstItem (h : Reads (.array [] :: outer) v) (rest : List Token) :
    run (.firstItem outer) (v.tokensOf ++ rest) = run (.afterItem [v] outer) rest := by
  obtain ⟨token, tail, htokens, hne, hread⟩ := h
  rw [run_append, htokens, run, step_firstItem hne, hread, Option.bind_some]
  rfl

theorem run_tokensOfItems {items : List Json} {before : List Json}
    (h : ∀ v ∈ items, ∀ before, Reads (.array before :: outer) v) (rest : List Token) :
    run (.afterItem before outer) (tokensOfItems items ++ rest) =
      run (place outer (.array (before.reverse ++ items))) rest := by
  induction items generalizing before with
  | nil =>
      rw [List.append_nil]
      rfl
  | cons v items ih =>
      obtain ⟨hv, hitems⟩ := List.forall_mem_cons.mp h
      rw [tokensOfItems, List.cons_append, List.append_assoc, run]
      change run (.value (.array before :: outer)) _ = _
      rw [(hv before).run_value, place, ih hitems, List.reverse_cons, List.append_assoc,
        List.singleton_append]

theorem run_tokensOfMembers {members : List (String × Json)} {before : List (String × Json)}
    (h : ∀ m ∈ members, ∀ before key, Reads (.member before key :: outer) m.2)
    (rest : List Token) :
    run (.afterMember before outer) (tokensOfMembers members ++ rest) =
      run (place outer (.object (before.reverse ++ members))) rest := by
  induction members generalizing before with
  | nil =>
      rw [List.append_nil]
      rfl
  | cons m members ih =>
      obtain ⟨key, v⟩ := m
      obtain ⟨hv, hmembers⟩ := List.forall_mem_cons.mp h
      rw [tokensOfMembers, List.cons_append, List.cons_append, List.cons_append, List.append_assoc]
      change run (.value (.member before key :: outer)) _ = _
      rw [(hv before key).run_value, place, ih hmembers, List.reverse_cons, List.append_assoc,
        List.singleton_append]

/-- A value is read from its tokens if there is room for the arrays and objects in it. -/
theorem reads_of_plain {depth : Nat} (h : Plain depth v)
    (hdepth : outer.length + depth ≤ maxDepth) : Reads outer v := by
  induction h generalizing outer with
  | null => exact ⟨_, _, rfl, by decide, rfl⟩
  | bool value => exact ⟨_, _, rfl, by simp, rfl⟩
  | string value => exact ⟨_, _, rfl, by simp, rfl⟩
  | @array depth items h ih =>
      have hbegin : beginValue outer .openArray = some (.firstItem outer) :=
        if_pos (by omega)
      cases items with
      | nil => exact ⟨_, _, rfl, by decide, by rw [hbegin]; rfl⟩
      | cons v items =>
          have hitems : ∀ v' ∈ v :: items, ∀ before, Reads (.array before :: outer) v' :=
            fun v' hv' before => ih v' hv' (by simp only [List.length_cons]; omega)
          refine ⟨_, _, by rw [tokensOf], by decide, ?_⟩
          rw [hbegin, Option.bind_some, (hitems v (by simp) []).run_firstItem,
            ← List.append_nil (tokensOfItems items),
            run_tokensOfItems (List.forall_mem_cons.mp hitems).2]
          rfl
  | @object depth members h ih =>
      have hbegin : beginValue outer .openObject = some (.firstKey outer) :=
        if_pos (by omega)
      cases members with
      | nil => exact ⟨_, _, rfl, by decide, by rw [hbegin]; rfl⟩
      | cons m members =>
          obtain ⟨key, v⟩ := m
          have hmembers : ∀ m ∈ (key, v) :: members, ∀ before key',
              Reads (.member before key' :: outer) m.2 :=
            fun m hm before key' => ih m hm (by simp only [List.length_cons]; omega)
          refine ⟨_, _, by rw [tokensOf], by decide, ?_⟩
          rw [hbegin, Option.bind_some]
          change run (.value (.member [] key :: outer)) _ = _
          rw [(hmembers (key, v) (by simp) [] key).run_value, place,
            ← List.append_nil (tokensOfMembers members),
            run_tokensOfMembers (List.forall_mem_cons.mp hmembers).2]
          rfl

theorem ofTokens?_tokensOf {depth : Nat} (h : Plain depth v) (hdepth : depth ≤ maxDepth) :
    ofTokens? v.tokensOf = some v := by
  have hreads : Reads [] v := reads_of_plain h (by simpa using hdepth)
  rw [ofTokens?, ← List.append_nil v.tokensOf, hreads.run_value]
  rfl

end Reader

/-- A value without numbers that is not too deep is read back from what is written of it. -/
theorem parse?_pretty {depth : Nat} {v : Json} (h : Plain depth v) (hdepth : depth ≤ maxDepth) :
    parse? v.pretty.toUTF8 = some v := by
  have htext : String.fromUTF8? v.pretty.toUTF8 = some v.pretty := dif_pos v.pretty.isValidUTF8
  have htokens : tokens? v.pretty.toList = some v.tokensOf := by
    rw [← List.append_nil v.pretty.toList, pretty, cuts_of_plain h, tokens?, Option.map_some,
      List.append_nil]
  rw [parse?, htext, Option.bind_some, ofText?, htokens, Option.bind_some,
    Reader.ofTokens?_tokensOf h hdepth]

end ModuleSearch.Json
