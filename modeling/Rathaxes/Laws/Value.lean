import Rathaxes.Parse.Value

/-!
# How much of its text a value represents

The text of a value is accepted as a whole, and the node is built from what one rule has read. Every reader is
sound, so what a node represents is the front of the text; the rules for strings and serials read all of it, and
so does that for symbols. Two things are lost: what follows a number (`2.6.24` is the number `2`), and the scope
of a symbol (`value_text_iff`). A text that begins with a digit is always read as a number
(`number_of_digit`), so no version with a decimal first unit is a serial.
-/

set_option autoImplicit false

namespace Rathaxes.Parse

open CodeWorker

/-! ## The text a value represents -/

/-- The text of what follows a symbol. -/
def Suffix.text : Suffix → List Char
  | .plain => []
  | .register rfield none => '-' :: '>' :: rfield
  | .register rfield (some value) => '-' :: '>' :: (rfield ++ '.' :: value)
  | .field name => '.' :: name
  | .bits bitBegin none => '[' :: (bitBegin ++ [']'])
  | .bits bitBegin (some bitEnd) => '[' :: (bitBegin ++ '.' :: '.' :: (bitEnd ++ [']']))

/-- Separators and units joined. -/
def pairsText (pairs : List (String × String)) : List Char :=
  pairs.flatMap fun pair => pair.1.toList ++ pair.2.toList

/-- The text of a value: `val`, the parts of a symbol, or the units and separators of a serial. -/
def Value.text : Value → List Char
  | .number val => val
  | .string val => val
  | .symbol sym suffix => sym ++ suffix.text
  | .serial theSerial => theSerial.first.toList ++ pairsText theSerial.rest

/-! ## Readers -/

theorem readHexa_sound : Reader.Sound readHexa := by
  intro s a rest h
  unfold readHexa at h
  split at h
  · split at h
    · obtain ⟨b, hb, rfl⟩ := withFront_eq_some.1 h
      rw [readRun_sound _ hb]
      rfl
    · cases h
  · cases h

theorem numberRule_sound : Reader.Sound numberRule := by
  intro s a rest h
  rcases Option.or_eq_some_iff.1 h with hhexa | ⟨-, hinteger⟩
  · exact readHexa_sound hhexa
  · exact readInteger_sound hinteger

/-- The dot and the value, or nothing. -/
def registerValueText : Option (List Char) → List Char
  | none => []
  | some value => '.' :: value

theorem readRegisterValue_sound (s : List Char) :
    s = registerValueText (readRegisterValue s).1 ++ (readRegisterValue s).2 := by
  unfold readRegisterValue
  split
  · rename_i t
    cases hvalue : readIdentifier t with
    | none => rfl
    | some r =>
      obtain ⟨value, rest⟩ := r
      rw [readIdentifier_sound hvalue]
      rfl
  · rfl

theorem readRegister_sound {s rest : List Char} {suffix : Suffix}
    (h : readRegister s = some (suffix, rest)) : s = suffix.text ++ rest := by
  unfold readRegister at h
  split at h
  · obtain ⟨⟨rfield, s'⟩, hfield, h⟩ := Option.bind_eq_some_iff.1 h
    have hvalue := readRegisterValue_sound s'
    rw [readIdentifier_sound hfield]
    simp only at h
    generalize readRegisterValue s' = r at h hvalue
    obtain ⟨value, rest'⟩ := r
    cases h
    rw [hvalue]
    cases value <;> simp [registerValueText, Suffix.text]
  · cases h

theorem readField_sound {s rest : List Char} {suffix : Suffix}
    (h : readField s = some (suffix, rest)) : s = suffix.text ++ rest := by
  unfold readField at h
  split at h
  · obtain ⟨⟨field, rest'⟩, hfield, h⟩ := Option.bind_eq_some_iff.1 h
    cases h
    rw [readIdentifier_sound hfield]
    rfl
  · cases h

/-- The dots and the end of a range, or nothing. -/
def bitEndText : Option (List Char) → List Char
  | none => []
  | some bitEnd => '.' :: '.' :: bitEnd

theorem readBitEnd_sound (s : List Char) : s = bitEndText (readBitEnd s).1 ++ (readBitEnd s).2 := by
  unfold readBitEnd
  split
  · rename_i t
    cases hend : readInteger t with
    | none => rfl
    | some r =>
      obtain ⟨bitEnd, rest⟩ := r
      rw [readInteger_sound hend]
      rfl
  · rfl

theorem readBits_sound {s rest : List Char} {suffix : Suffix}
    (h : readBits s = some (suffix, rest)) : s = suffix.text ++ rest := by
  unfold readBits at h
  split at h
  · obtain ⟨⟨bitBegin, s'⟩, hbegin, h⟩ := Option.bind_eq_some_iff.1 h
    have hend := readBitEnd_sound s'
    rw [readInteger_sound hbegin]
    simp only at h
    generalize readBitEnd s' = r at h hend
    obtain ⟨bitEnd, s''⟩ := r
    simp only at h
    split at h
    · cases h
      rw [hend]
      cases bitEnd <;> simp [bitEndText, Suffix.text]
    · cases h
  · cases h

theorem readSuffix_sound (s : List Char) : s = (readSuffix s).1.text ++ (readSuffix s).2 := by
  unfold readSuffix
  cases hread : (readRegister s).or ((readField s).or (readBits s)) with
  | none => rfl
  | some r =>
    rcases Option.or_eq_some_iff.1 hread with hregister | ⟨-, hread⟩
    · exact readRegister_sound hregister
    · rcases Option.or_eq_some_iff.1 hread with hfield | ⟨-, hbits⟩
      · exact readField_sound hfield
      · exact readBits_sound hbits

theorem readScope_sound (s : List Char) : s = (readScope s).1 ++ (readScope s).2 := by
  unfold readScope
  split
  · rename_i scope rest hscope
    rw [readIdentifier_sound hscope]
    simp
  · rfl

/-- A symbol is read to the end of its text. -/
theorem symbolRule_whole {s : List Char} {symbol : Symbol} (h : symbolRule s = some symbol) :
    s = symbol.scope ++ (symbol.sym ++ symbol.suffix.text) := by
  have hscope := readScope_sound s
  unfold symbolRule at h
  generalize readScope s = r at h hscope
  obtain ⟨scope, t⟩ := r
  obtain ⟨⟨sym, s'⟩, hsym, h⟩ := Option.bind_eq_some_iff.1 h
  have hsuffix := readSuffix_sound s'
  simp only at h
  generalize readSuffix s' = r at h hsuffix
  obtain ⟨suffix, rest⟩ := r
  simp only at h
  split at h
  · rename_i hend
    cases h
    rw [hscope, readIdentifier_sound hsym, hsuffix, hend, List.append_nil]
  · cases h

/-! ## Strings -/

theorem stringTail_sound : Reader.Sound stringTail := by
  intro s
  induction s using stringTail.induct with
  | case1 c d s hstop =>
    intro a rest h
    rw [stringTail, if_pos hstop] at h
    cases h
    rfl
  | case2 c d s hgo ih =>
    intro a rest h
    rw [stringTail, if_neg hgo] at h
    obtain ⟨b, hb, rfl⟩ := withFront_eq_some.1 h
    rw [ih hb]
    rfl
  | case3 s hshort =>
    intro a rest h
    rw [stringTail] at h
    · cases h
    · exact hshort

/-- A jump goes on from the second character, or ends at a quote there. -/
theorem stringTail_cons {c : Char} {s a rest : List Char} (h : stringTail (c :: s) = some (a, rest)) :
    (c ≠ backslash ∧ s = doubleQuote :: rest) ∨ ∃ b, stringTail s = some (b, rest) := by
  cases s with
  | nil => cases h
  | cons d s =>
    rw [stringTail] at h
    split at h
    · rename_i hstop
      cases h
      exact Or.inl ⟨hstop.1, by rw [hstop.2]⟩
    · obtain ⟨b, hb, -⟩ := withFront_eq_some.1 h
      exact Or.inr ⟨b, hb⟩

/-- In what `#readCString` reads, the jump ends at the last quote, if it ends; also one that begins a
character before. -/
theorem stringTail_of_readCStringTail : ∀ {s a rest : List Char}, readCStringTail s = some (a, rest) →
    (∀ b r, stringTail a = some (b, r) → r = []) ∧
      ∀ c b r, stringTail (c :: a) = some (b, r) → r = [] := by
  intro s
  induction s using readCStringTail.induct with
  | case1 =>
    intro a rest h
    cases h
  | case2 s =>
    intro a rest h
    rw [readCStringTail_quote] at h
    cases h
    constructor
    · intro b r h
      cases h
    · intro c b r h
      rcases stringTail_cons h with ⟨-, hquote⟩ | ⟨b', hb'⟩
      · exact (List.cons.inj hquote).2.symm
      · cases hb'
  | case3 =>
    intro a rest h
    cases h
  | case4 d s hslash ih =>
    intro a rest h
    rw [readCStringTail_escape] at h
    obtain ⟨a, ha, rfl⟩ := withFront_eq_some.1 h
    have hall := (ih ha).2
    have htail : ∀ b r, stringTail (backslash :: d :: a) = some (b, r) → r = [] := by
      intro b r h
      rcases stringTail_cons h with ⟨hne, -⟩ | ⟨b', hb'⟩
      · exact absurd rfl hne
      · exact hall d b' r hb'
    refine ⟨htail, fun c b r h => ?_⟩
    rcases stringTail_cons h with ⟨-, hquote⟩ | ⟨b', hb'⟩
    · exact absurd (List.cons.inj hquote).1 hslash
    · exact htail b' r hb'
  | case5 c s hquote hslash ih =>
    intro a rest h
    rw [readCStringTail_other s hquote hslash] at h
    obtain ⟨a, ha, rfl⟩ := withFront_eq_some.1 h
    have hall := (ih ha).2
    refine ⟨fun b r h => hall c b r h, fun d b r h => ?_⟩
    rcases stringTail_cons h with ⟨-, heq⟩ | ⟨b', hb'⟩
    · exact absurd (List.cons.inj heq).1 hquote
    · exact hall c b' r hb'

/-- Where a jump ends there is a string of C. -/
theorem isSome_readCStringTail (more : List Char) : ∀ {s : List Char}, (stringTail s).isSome →
    (readCStringTail (s ++ more)).isSome := by
  intro s
  induction s using readCStringTail.induct with
  | case1 =>
    intro h
    cases h
  | case2 s =>
    intro _
    rw [List.cons_append, readCStringTail_quote]
    rfl
  | case3 =>
    intro h
    cases h
  | case4 d s _ ih =>
    intro h
    rw [List.cons_append, List.cons_append, readCStringTail_escape, withFront, Option.isSome_map]
    obtain ⟨⟨b, r⟩, hb⟩ := Option.isSome_iff_exists.1 h
    rcases stringTail_cons hb with ⟨hne, -⟩ | ⟨b', hb'⟩
    · exact absurd rfl hne
    · rcases stringTail_cons hb' with ⟨-, rfl⟩ | ⟨b'', hb''⟩
      · rw [List.cons_append, readCStringTail_quote]
        rfl
      · exact ih (by rw [hb'']; rfl)
  | case5 c s hquote hslash ih =>
    intro h
    rw [List.cons_append, readCStringTail_other _ hquote hslash, withFront, Option.isSome_map]
    obtain ⟨⟨b, r⟩, hb⟩ := Option.isSome_iff_exists.1 h
    rcases stringTail_cons hb with ⟨-, rfl⟩ | ⟨b', hb'⟩
    · rw [List.cons_append, readCStringTail_quote]
      rfl
    · exact ih (by rw [hb']; rfl)

/-! ## The text handed to the rules -/

theorem readPlain_sound : Reader.Sound readPlain := by
  intro s a rest h
  unfold readPlain at h
  simp only at h
  split at h
  · cases h
  · cases h
    have hfront := (List.rdropWhile_prefix Char.isWhitespace _).trans
      (List.takeWhile_prefix (l := s) fun c => !isDelimiter c)
    exact (List.prefix_iff_eq_append.1 hfront).symm

theorem readData_sound : Reader.Sound readData := by
  intro s a rest h
  rcases Option.or_eq_some_iff.1 h with hstring | ⟨-, h⟩
  · exact readCString_sound hstring
  · rcases Option.or_eq_some_iff.1 h with hchar | ⟨-, hplain⟩
    · exact readCChar_sound hchar
    · exact readPlain_sound hplain

/-- **A string is read to its end.** -/
theorem stringRule_whole {s data rest str r : List Char} (hdata : readData s = some (data, rest))
    (h : stringRule data = some (str, r)) : str = data := by
  have hs := readData_sound hdata
  cases data with
  | nil => cases h
  | cons c data =>
    unfold stringRule at h
    simp only at h
    split at h
    · rename_i hquote
      obtain ⟨tail, htail, rfl⟩ := withFront_eq_some.1 h
      -- a jump that ends shows that the text was read as a string of C
      have hread : readCString s = some (c :: data, rest) := by
        rcases Option.or_eq_some_iff.1 hdata with hread | ⟨hnone, -⟩
        · exact hread
        · have hsome := isSome_readCStringTail rest (s := data) (by rw [htail]; rfl)
          rw [hs, List.cons_append, readCString, if_pos hquote, withFront] at hnone
          rw [Option.map_eq_none_iff] at hnone
          rw [hnone] at hsome
          cases hsome
      rw [hs, List.cons_append, readCString, if_pos hquote] at hread
      obtain ⟨b, hb, hdata'⟩ := withFront_eq_some.1 hread
      cases hdata'
      have hend := (stringTail_of_readCStringTail hb).1 tail r htail
      rw [stringTail_sound htail, hend, List.append_nil]
      rfl
    · cases h

/-! ## Serials -/

theorem readPairs_sound : ∀ (fuel : Nat) (s : List Char),
    s = pairsText (readPairs fuel s).1 ++ (readPairs fuel s).2
  | 0, s => by
    cases s <;> rfl
  | fuel + 1, [] => rfl
  | fuel + 1, c :: s => by
    unfold readPairs
    split
    · cases hunit : readRun isUnitChar s with
      | none => rfl
      | some r =>
        obtain ⟨unit, rest⟩ := r
        have hrest := readPairs_sound fuel rest
        rw [readRun_sound _ hunit]
        simp only [pairsText, List.flatMap_cons, String.toList_singleton, String.toList_ofList,
          List.cons_append, List.nil_append, List.append_assoc]
        rw [← pairsText, ← hrest]
    · rfl

theorem readSerial_sound {s rest : List Char} {theSerial : Serial}
    (h : readSerial s = some (theSerial, rest)) : s = (Value.serial theSerial).text ++ rest := by
  obtain ⟨⟨first, s'⟩, hfirst, h⟩ := Option.bind_eq_some_iff.1 h
  have hpairs := readPairs_sound s'.length s'
  simp only at h
  split at h
  · cases h
    rw [readRun_sound _ hfirst, Value.text, String.toList_ofList, List.append_assoc, ← hpairs]
  · cases h

/-! ## Digits -/

section Digits

variable {c : Char} (h : c.isDigit = true)

include h

theorem ne_of_isDigit {d : Char} (hd : d.isDigit = false) : c ≠ d := by
  rintro rfl
  rw [h] at hd
  cases hd

theorem not_isWhitespace_of_isDigit : c.isWhitespace = false := by
  simp [Char.isWhitespace, ne_of_isDigit h (d := ' ') (by decide),
    ne_of_isDigit h (d := '\t') (by decide), ne_of_isDigit h (d := '\r') (by decide),
    ne_of_isDigit h (d := '\n') (by decide)]

theorem not_isDelimiter_of_isDigit : isDelimiter c = false := by
  simp [isDelimiter, ne_of_isDigit h (d := ',') (by decide), ne_of_isDigit h (d := ')') (by decide),
    ne_of_isDigit h (d := '\x7b') (by decide), ne_of_isDigit h (d := ';') (by decide)]

/-- A text that begins with a digit begins with a number. -/
theorem isSome_numberRule (s : List Char) : (numberRule (c :: s)).isSome := by
  have hinteger : readInteger (c :: s) = readRun Char.isDigit (c :: s) := by
    unfold readInteger
    split
    · rename_i heq
      exact absurd (List.cons.inj heq).1 (ne_of_isDigit h (by decide))
    · rename_i heq
      exact absurd (List.cons.inj heq).1 (ne_of_isDigit h (by decide))
    · rfl
  simp [numberRule, hinteger, readRun, h]

/-- The text of a value that begins with a digit does. -/
theorem readData_of_isDigit (s : List Char) : ∃ data rest, readData (c :: s) = some (c :: data, rest) := by
  have hstring : readCString (c :: s) = none := by
    rw [readCString, if_neg (ne_of_isDigit h (by decide))]
  have hchar : readCChar (c :: s) = none := by
    unfold readCChar
    split
    · rename_i heq
      rw [← (List.cons.inj heq).1, if_pos (ne_of_isDigit h (by decide))]
    · rfl
  -- the first character is neither the end of the value nor a blank at its end
  have hfront := List.rdropWhile_prefix Char.isWhitespace
    ((c :: s).takeWhile fun c => !isDelimiter c)
  have hne : ((c :: s).takeWhile fun c => !isDelimiter c).rdropWhile Char.isWhitespace ≠ [] := by
    rw [Ne, List.rdropWhile_eq_nil_iff]
    intro hall
    have hblank := hall c (by simp [not_isDelimiter_of_isDigit h])
    rw [not_isWhitespace_of_isDigit h] at hblank
    cases hblank
  have htake : (c :: s).takeWhile (fun c => !isDelimiter c) =
      c :: s.takeWhile fun c => !isDelimiter c := by
    simp [not_isDelimiter_of_isDigit h]
  obtain ⟨d, data, hdata⟩ := List.exists_cons_of_ne_nil hne
  rw [hdata, htake] at hfront
  obtain rfl : d = c := (List.cons_prefix_cons.1 hfront).1
  refine ⟨data, s.drop data.length, ?_⟩
  simp [readData, hstring, hchar, readPlain, hdata]

end Digits

/-- **A value that begins with a digit is read as a number**: a serial never has a decimal first unit. -/
theorem number_of_digit {input s rest : List Char} {c : Char} {value : Value} (hdigit : c.isDigit = true)
    (hinput : input.dropWhile Char.isWhitespace = c :: s) (h : rtxValue input = some (value, rest)) :
    ∃ str, value = .number str := by
  obtain ⟨data, rest', hdata⟩ := readData_of_isDigit hdigit s
  obtain ⟨⟨str, after⟩, hnumber⟩ := Option.isSome_iff_exists.1 (isSome_numberRule hdigit data)
  unfold rtxValue at h
  simp only [hinput, hdata, rtxTypeSearch, hnumber, Option.some.injEq, Prod.mk.injEq] at h
  exact ⟨str, h.1.symm⟩

/-! ## What the rules tell apart -/

/-- A symbol begins like an identifier. -/
theorem isSome_readIdentifier_of_symbolRule {s : List Char} {symbol : Symbol} (h : symbolRule s = some symbol) :
    (readIdentifier s).isSome = true := by
  cases hread : readIdentifier s with
  | some r => rfl
  | none =>
    have hscope : readScope s = ([], s) := by rw [readScope, hread]
    unfold symbolRule at h
    rw [hscope] at h
    obtain ⟨r, hr, -⟩ := Option.bind_eq_some_iff.1 h
    rw [hread] at hr
    cases hr

theorem not_isDigit_of_isIdentStart {c : Char} (h : isIdentStart c = true) : c.isDigit = false := by
  rw [Bool.eq_false_iff]
  intro hdigit
  simp only [isIdentStart, Bool.or_eq_true, beq_iff_eq] at h
  rcases h with halpha | rfl
  · delta Char.isAlpha Char.isUpper Char.isLower Char.isDigit at halpha hdigit
    simp only [Bool.or_eq_true, Bool.and_eq_true, decide_eq_true_eq, UInt32.le_iff_toNat_le, ge_iff_le] at halpha hdigit
    simp at halpha hdigit
    omega
  · cases hdigit

/-- What is read as a number does not begin like an identifier. -/
theorem numberRule_of_isIdentStart {c : Char} (h : isIdentStart c = true) (s : List Char) :
    numberRule (c :: s) = none := by
  have hdigit := not_isDigit_of_isIdentStart h
  have hne : ∀ {d : Char}, isIdentStart d = false → c ≠ d := by
    rintro d hd rfl
    rw [h] at hd
    cases hd
  have hhexa : readHexa (c :: s) = none := by
    unfold readHexa
    split
    · rename_i heq
      exact absurd (List.cons.inj heq).1 (hne (by decide))
    · rfl
  have hinteger : readInteger (c :: s) = none := by
    unfold readInteger
    split
    · rename_i heq
      exact absurd (List.cons.inj heq).1 (hne (by decide))
    · rename_i heq
      exact absurd (List.cons.inj heq).1 (hne (by decide))
    · simp [readRun, hdigit]
  rw [numberRule, hhexa, hinteger]
  rfl

theorem symbolRule_of_numberRule {s : List Char} (h : (numberRule s).isSome = true) : symbolRule s = none := by
  cases hsymbol : symbolRule s with
  | none => rfl
  | some symbol =>
    have hident := isSome_readIdentifier_of_symbolRule hsymbol
    cases s with
    | nil => cases hident
    | cons c s =>
      rw [readIdentifier] at hident
      split at hident
      · rename_i hstart
        rw [numberRule_of_isIdentStart hstart s] at h
        cases h
      · cases hident

theorem symbolRule_of_stringRule {s : List Char} (h : (stringRule s).isSome = true) : symbolRule s = none := by
  cases hsymbol : symbolRule s with
  | none => rfl
  | some symbol =>
    have hident := isSome_readIdentifier_of_symbolRule hsymbol
    cases s with
    | nil => cases hident
    | cons c s =>
      rw [stringRule] at h
      split at h
      · rename_i hquote
        subst hquote
        cases hident
      · cases h

/-- The characters of a serial. -/
def isSerialChar (c : Char) : Bool := isUnitChar c || isSeparator c

theorem all_of_readRun {p : Char → Bool} {s a rest : List Char} (h : readRun p s = some (a, rest)) :
    ∀ c ∈ a, p c = true := by
  unfold readRun at h
  split at h
  · cases h
  · cases h
    exact fun c hc => List.mem_takeWhile_imp hc

theorem isSerialChar_of_readPairs : ∀ (fuel : Nat) (s : List Char), ∀ c ∈ pairsText (readPairs fuel s).1,
    isSerialChar c = true
  | 0, s, c, hc => by
    cases s <;> cases hc
  | fuel + 1, [], c, hc => by cases hc
  | fuel + 1, d :: s, c, hc => by
    unfold readPairs at hc
    split at hc
    · rename_i hseparator
      cases hunit : readRun isUnitChar s with
      | none =>
        rw [hunit] at hc
        cases hc
      | some r =>
        obtain ⟨unit, rest⟩ := r
        rw [hunit] at hc
        simp only [pairsText, List.flatMap_cons, String.toList_singleton, String.toList_ofList, List.mem_append,
          List.mem_singleton] at hc
        rcases hc with (rfl | hc) | hc
        · simp [isSerialChar, hseparator]
        · simp [isSerialChar, all_of_readRun hunit c hc]
        · exact isSerialChar_of_readPairs fuel rest c hc
    · cases hc

/-- A serial begins with a letter or a digit, and has no colon. -/
theorem readSerial_chars {s rest : List Char} {theSerial : Serial} (h : readSerial s = some (theSerial, rest)) :
    (∃ c tail, (Value.serial theSerial).text = c :: tail ∧ isUnitChar c = true) ∧ ':' ∉ (Value.serial theSerial).text := by
  obtain ⟨⟨first, s'⟩, hfirst, h⟩ := Option.bind_eq_some_iff.1 h
  have hunits := all_of_readRun hfirst
  simp only at h
  split at h
  · cases h
    rw [Value.text, String.toList_ofList]
    constructor
    · cases first with
      | nil =>
        unfold readRun at hfirst
        split at hfirst
        · cases hfirst
        · rename_i hne
          exact absurd (congrArg Prod.fst (Option.some.inj hfirst)) hne
      | cons c tail => exact ⟨c, _, rfl, hunits c List.mem_cons_self⟩
    · intro hmem
      have hchar : isSerialChar ':' = true := by
        rcases List.mem_append.1 hmem with hmem | hmem
        · simp [isSerialChar, hunits ':' hmem]
        · exact isSerialChar_of_readPairs _ _ ':' hmem
      revert hchar
      decide
  · cases h

/-! ## Values -/

/-- A part of the text is lost: what follows the number it begins with, or the scope of the symbol it is. -/
def Loses (text : List Char) : Prop :=
  (∃ str rest, numberRule text = some (str, rest) ∧ rest ≠ []) ∨
    ∃ symbol, symbolRule text = some symbol ∧ symbol.scope ≠ []

theorem rtxTypeSearch_text_iff {s data rest : List Char} {value : Value}
    (hdata : readData s = some (data, rest)) (h : rtxTypeSearch data = some value) :
    value.text = data ↔ ¬ Loses data := by
  unfold rtxTypeSearch at h
  split at h
  · rename_i str after hnumber
    cases h
    have htext := numberRule_sound hnumber
    have hsymbol : symbolRule data = none := symbolRule_of_numberRule (by rw [hnumber]; rfl)
    simp only [Loses, Value.text, hnumber, hsymbol, Option.some.injEq, Prod.mk.injEq]
    refine ⟨fun heq hloses => ?_, fun hkeeps => ?_⟩
    · rcases hloses with ⟨_, _, ⟨rfl, rfl⟩, hne⟩ | ⟨_, hnone, -⟩
      · exact hne (by simpa [heq] using htext)
      · cases hnone
    · have hend : after = [] := by
        by_contra hne
        exact hkeeps (.inl ⟨str, after, ⟨rfl, rfl⟩, hne⟩)
      rw [htext, hend, List.append_nil]
  · rename_i hnumber
    split at h
    · rename_i str after hstring
      cases h
      have hsymbol : symbolRule data = none := symbolRule_of_stringRule (by rw [hstring]; rfl)
      simpa [Loses, Value.text, hnumber, hsymbol] using stringRule_whole hdata hstring
    · obtain ⟨symbol, hsymbol, rfl⟩ := Option.map_eq_some_iff.1 h
      have htext := symbolRule_whole hsymbol
      simp only [Loses, Value.text, hnumber, hsymbol, Option.some.injEq, exists_eq_left', reduceCtorEq, false_and,
        exists_false, false_or, not_not]
      refine ⟨fun heq => ?_, fun hscope => ?_⟩
      · rw [heq] at htext
        exact List.self_eq_append_left.1 htext
      · rw [htext, hscope, List.nil_append]

/-- A scope has colons in it. -/
theorem colon_mem_of_scope {s : List Char} {symbol : Symbol} (h : symbolRule s = some symbol)
    (hscope : symbol.scope ≠ []) : ':' ∈ s := by
  have hread : symbol.scope = (readScope s).1 := by
    unfold symbolRule at h
    simp only at h
    obtain ⟨⟨sym, s'⟩, -, h⟩ := Option.bind_eq_some_iff.1 h
    simp only at h
    split at h
    · cases h
      rfl
    · cases h
  have hcolon : ':' ∈ (readScope s).1 := by
    rw [hread] at hscope
    unfold readScope at hscope ⊢
    split
    · simp
    · rename_i hnot
      split at hscope
      · rename_i heq
        exact absurd heq (hnot _ _)
      · exact absurd rfl hscope
  rw [readScope_sound s]
  exact List.mem_append_left _ hcolon

/-- What is read as a serial has neither. -/
theorem not_loses_of_readSerial {s text rest : List Char} {theSerial : Serial}
    (h : readSerial s = some (theSerial, rest)) (htext : (Value.serial theSerial).text = text)
    (hdigit : ∀ c tail, text = c :: tail → c.isDigit = false) : ¬ Loses text := by
  obtain ⟨⟨c, tail, hhead, hunit⟩, hcolon⟩ := readSerial_chars h
  rw [htext] at hhead hcolon
  rintro (⟨str, after, hnumber, -⟩ | ⟨symbol, hsymbol, hscope⟩)
  · -- a letter does not begin a number
    have hstart : isIdentStart c = true := by
      have hnot := hdigit c tail hhead
      simp only [isUnitChar, Char.isAlphanum, Bool.or_eq_true, hnot, Bool.false_eq_true, or_false] at hunit
      simp [isIdentStart, hunit]
    rw [hhead, numberRule_of_isIdentStart hstart] at hnumber
    cases hnumber
  · exact hcolon (colon_mem_of_scope hsymbol hscope)

/-- **A value represents the text it was read from** unless a number does not end it or a symbol has a
scope. -/
theorem value_text_iff {input text rest : List Char} {value : Value}
    (h : rtxValue input = some (value, rest))
    (htext : input.dropWhile Char.isWhitespace = text ++ rest) :
    value.text = text ↔ ¬ Loses text := by
  have hnumber := fun c s hc hinput => @number_of_digit input s rest c value hc hinput h
  unfold rtxValue at h
  simp only at h
  -- a serial represents what it was read from, and does not begin with a digit
  have hserial : (readSerial (input.dropWhile Char.isWhitespace)).map
      (fun r => (Value.serial r.1, r.2)) = some (value, rest) → (value.text = text ↔ ¬ Loses text) := by
    intro h
    obtain ⟨⟨theSerial, rest'⟩, hread, hpair⟩ := Option.map_eq_some_iff.1 h
    cases hpair
    have hwhole : (Value.serial theSerial).text = text :=
      List.append_cancel_right ((readSerial_sound hread).symm.trans htext)
    refine iff_of_true hwhole (not_loses_of_readSerial hread hwhole fun c tail hhead => ?_)
    rw [Bool.eq_false_iff]
    intro hdigit
    obtain ⟨str, hvalue⟩ := hnumber c (tail ++ rest') hdigit (by rw [htext, hhead, List.cons_append])
    cases hvalue
  cases hdata : readData (input.dropWhile Char.isWhitespace) with
  | none =>
    rw [hdata] at h
    exact hserial h
  | some r =>
    obtain ⟨data, rest'⟩ := r
    rw [hdata] at h
    simp only at h
    cases hsearch : rtxTypeSearch data with
    | none =>
      rw [hsearch] at h
      exact hserial h
    | some found =>
      rw [hsearch] at h
      cases h
      have hsame : data = text :=
        List.append_cancel_right ((readData_sound hdata).symm.trans htext)
      rw [← hsame]
      exact rtxTypeSearch_text_iff hdata hsearch

/-- `eth0` and a comma. -/
theorem value_text_symbol :
    (Value.symbol ['e', 't', 'h', '0'] .plain).text = ['e', 't', 'h', '0'] ↔ ¬ Loses ['e', 't', 'h', '0'] :=
  @value_text_iff [' ', 'e', 't', 'h', '0', ','] _ [','] _ rfl rfl

/-- `2.6.24` could be read as a serial, and is the number `2`; of `A::b` the symbol `b` is left. -/
theorem version_cut :
    (readSerial ['2', '.', '6', '.', '2', '4']).map (fun r => (r.1.first, r.1.rest, r.2)) =
        some ("2", [(".", "6"), (".", "24")], []) ∧
      rtxValue ['2', '.', '6', '.', '2', '4'] = some (.number ['2'], []) ∧
      (Value.number ['2']).text ≠ ['2', '.', '6', '.', '2', '4'] ∧
      rtxValue ['A', ':', ':', 'b'] = some (.symbol ['b'] .plain, []) ∧
      (Value.symbol ['b'] .plain).text ≠ ['A', ':', ':', 'b'] :=
  ⟨by decide, rfl, by decide, rfl, by decide⟩

end Rathaxes.Parse
