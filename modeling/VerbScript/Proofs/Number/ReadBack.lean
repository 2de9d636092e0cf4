import VerbScript.Proofs.Effect
import VerbScript.Proofs.Number.Decimals
import VerbScript.Proofs.Syntax.WellFormed

/-!
# VerbScript.Proofs.Number.ReadBack

What `send` writes, `scan` reads back (`Number.scan_plainText`).

* `Input.nextLine_ofText`: a text without blanks is read back as a line.
* `Number.ofText?_text`: the written form of a number is read as the number.
* `Number.ofText?_plainText`: so is what a program writes, but for negative zero, which is written
  as zero.
-/

namespace VerbScript

/-! ## Lines -/

namespace Input

theorem toList_loop (bytes : ByteArray) (i : Nat) (front : List UInt8) :
    ByteArray.toList.loop bytes i front = front.reverse ++ bytes.data.toList.drop i := by
  fun_induction ByteArray.toList.loop bytes i front with
  | case1 i front hi ih =>
    have hlt : i < bytes.data.toList.length := by simpa using hi
    rw [ih, List.drop_eq_getElem_cons hlt]
    simp [ByteArray.get!, hi]
  | case2 i front hi =>
    rw [List.drop_eq_nil_of_le (by simpa using Nat.le_of_not_lt hi), List.append_nil]

theorem ofText_eq_data (text : String) : ofText text = text.toByteArray.data.toList := by
  rw [ofText, String.toUTF8_eq_toByteArray, ByteArray.toList, toList_loop]
  rfl

/-- The bytes of a text are those of its characters. -/
theorem ofText_eq (text : String) : ofText text = text.toList.flatMap String.utf8EncodeChar := by
  have hbytes : text.toByteArray = text.toList.utf8Encode := by
    rw [← String.toByteArray_ofList, String.ofList_toList]
  rw [ofText_eq_data, hbytes, List.utf8Encode, List.toList_data_toByteArray]

/-- No byte of another character is a line feed. -/
theorem not_mem_utf8EncodeChar {c : Char} (h : c ≠ '\n') : 10 ∉ String.utf8EncodeChar c := by
  have hcode : c.val.toNat ≠ 10 := fun heq => h (Char.ext (UInt32.toNat_inj.1 heq))
  have hbyte : ∀ n, n % 256 ≠ 10 → (10 : UInt8) ≠ UInt8.ofNat n := by
    intro n hn heq
    have htoNat := congrArg UInt8.toNat heq
    rw [UInt8.toNat_ofNat'] at htoNat
    exact hn htoNat.symm
  simp only [String.utf8EncodeChar]
  split
  · simp only [List.mem_singleton]
    exact hbyte _ (by omega)
  split
  · simp only [List.mem_cons, List.not_mem_nil, or_false, not_or]
    exact ⟨hbyte _ (by omega), hbyte _ (by omega)⟩
  split
  · simp only [List.mem_cons, List.not_mem_nil, or_false, not_or]
    exact ⟨hbyte _ (by omega), hbyte _ (by omega), hbyte _ (by omega)⟩
  · simp only [List.mem_cons, List.not_mem_nil, or_false, not_or]
    exact ⟨hbyte _ (by omega), hbyte _ (by omega), hbyte _ (by omega), hbyte _ (by omega)⟩

theorem splitLine_line {line : List UInt8} (h : 10 ∉ line) (rest : Input) :
    splitLine (line ++ 10 :: rest) = (line ++ [10], rest) := by
  induction line with
  | nil => simp [splitLine]
  | cons byte line ih =>
    rw [List.mem_cons, not_or] at h
    rw [List.cons_append, splitLine, if_neg (Ne.symm h.1), ih h.2]
    rfl

theorem nextLine_line {line : List UInt8} (h : 10 ∉ line) (rest : Input) :
    nextLine (line ++ 10 :: rest) = (some (decodeLine (line ++ [10])), rest) := by
  have hsplit := splitLine_line h rest
  cases line with
  | nil => rfl
  | cons byte line =>
    rw [List.cons_append] at hsplit ⊢
    simp only [nextLine, hsplit, List.cons_append]

theorem fromUTF8?_ofText (text : String) :
    String.fromUTF8? ⟨(ofText text).toArray⟩ = some text := by
  rw [ofText_eq_data, Array.toArray_toList, String.fromUTF8?, dif_pos text.isValidUTF8]
  rfl

/-- The line feed behind a text without line ends is all that is dropped. -/
theorem dropFinal_lineEnd {text : List Char} (h : ∀ c ∈ text, ¬ (c = '\n' ∨ c = '\r')) :
    Text.dropFinal (fun c => c = '\n' || c = '\r') (text ++ ['\n']) = text := by
  rw [Text.dropFinal, List.reverse_concat, List.dropWhile_cons_of_pos (by decide)]
  cases hreverse : text.reverse with
  | nil => rw [List.reverse_eq_nil_iff.1 hreverse]; rfl
  | cons c front =>
    have hc := h c (List.mem_reverse.1 (hreverse ▸ List.mem_cons_self))
    rw [List.dropWhile_cons_of_neg (by simpa using hc), ← hreverse, List.reverse_reverse]

/-- A text without line ends is read back as a line. -/
theorem nextLine_ofText {text : String} (h : ∀ c ∈ text.toList, ¬ (c = '\n' ∨ c = '\r'))
    (rest : Input) :
    nextLine (ofText (text ++ "\n") ++ rest) = (some (.ok text), rest) := by
  have hbytes : ofText (text ++ "\n") = ofText text ++ [10] := by
    rw [ofText_eq, ofText_eq, String.toList_append, List.flatMap_append]
    rfl
  have hline : 10 ∉ ofText text := by
    rw [ofText_eq, List.mem_flatMap]
    rintro ⟨c, hc, hmem⟩
    exact not_mem_utf8EncodeChar (fun heq => h c hc (.inl heq)) hmem
  have hdecode : decodeLine (ofText text ++ [10]) = .ok text := by
    have hends : (text ++ "\n").toList = text.toList ++ ['\n'] := String.toList_append
    rw [← hbytes, decodeLine, fromUTF8?_ofText]
    simp only [hends, dropFinal_lineEnd h, String.ofList_toList]
  rw [hbytes, List.append_assoc, List.singleton_append, nextLine_line hline, hdecode]

end Input

theorem Machine.readLine_ofText {m : Machine} {text : String} {rest : Input}
    (h : ∀ c ∈ text.toList, ¬ (c = '\n' ∨ c = '\r')) (hflush : m.sink.flushFails = false)
    (hinput : m.input = Input.ofText (text ++ "\n") ++ rest) (place : Position) :
    m.readLine place = .done text { m with input := rest } := by
  have hline : LineSource.nextLine m.input = (some (.ok text), rest) := by
    rw [hinput]
    exact Input.nextLine_ofText h rest
  simp only [readLine, flush_of_sink hflush, Outcome.andThen, hline]

/-! ## Texts of numbers -/

namespace Number

/-- The characters with which numbers are written, NaN apart. None of them is a blank. -/
def IsWritten (c : Char) : Prop := c.isDigit = true ∨ c ∈ ['.', '-', 'i', 'n', 'f']

theorem IsWritten.not_blank {c : Char} (h : IsWritten c) : Text.isBlank c = false := by
  rcases h with h | h
  · obtain ⟨hlow, hhigh⟩ := toNat_of_isDigit h
    simp [Text.isBlank, Text.blankRanges]
    omega
  · simp only [List.mem_cons, List.not_mem_nil, or_false] at h
    rcases h with rfl | rfl | rfl | rfl | rfl <;> decide

theorem IsWritten.not_lineEnd {c : Char} (h : IsWritten c) : ¬ (c = '\n' ∨ c = '\r') := by
  rintro (rfl | rfl) <;> exact absurd h.not_blank (by decide)

theorem isWritten_signed {negative : Bool} {text : List Char} (h : ∀ c ∈ text, IsWritten c) :
    ∀ c ∈ (signText negative ++ String.ofList text).toList, IsWritten c := by
  intro c hc
  rw [String.toList_append, String.toList_ofList, List.mem_append] at hc
  rcases hc with hc | hc
  · cases negative with
    | false => cases hc
    | true => exact .inr (List.mem_singleton.1 hc ▸ by decide)
  · exact h c hc

theorem isWritten_positional (d : Decimal) : ∀ c ∈ d.positional, IsWritten c := by
  intro c hc
  rcases Decimal.positional_chars d c hc with h | rfl
  · exact .inl h
  · exact .inr (by decide)

/-- A decimal behind a sign is read as the number nearest to it. -/
theorem ofText?_signed (negative : Bool) (d : Decimal) :
    ofText? (signText negative ++ String.ofList d.positional) =
      some (ofMagnitude negative d.nearestBits) := by
  obtain ⟨d', hread, hsame⟩ := Decimal.ofText?_positional d
  have hchars := Decimal.positional_chars d
  rw [← Decimal.nearestBits_congr hsame]
  cases negative with
  | false =>
    rw [signText, if_neg Bool.false_ne_true, String.empty_append, ofText?_eq_decimal hchars, hread,
      Option.map_some]
  | true =>
    have htext : (signText true ++ String.ofList d.positional).toList = '-' :: d.positional := by
      rw [String.toList_append, String.toList_ofList]
      rfl
    rw [ofText?, htext]
    simp only [ofUnsignedText?_eq_decimal true hchars, hread, Option.map_some]

/-- A decimal that is nearest to what a number denotes is read as the number. -/
theorem ofText?_finite {x : Number} {negative : Bool} {units : Nat} {d : Decimal}
    (hx : x.exact = .finite negative units) (hd : d.nearestBits = Exact.nearestBits units 1) :
    ofText? (signText negative ++ String.ofList d.positional) = some x := by
  rw [ofText?_signed, hd, ← eq_ofMagnitude hx]

theorem ofText?_infinite {x : Number} {negative : Bool} (hx : x.exact = .infinite negative) :
    ofText? (signText negative ++ "inf") = some x := by
  rw [eq_infinity hx]
  cases negative <;> rfl

/-- The written form of a number is read as the number. -/
theorem ofText?_text {x : Number} (h : x.exact ≠ .nan) : ofText? x.text = some x := by
  cases hx : x.exact with
  | nan => exact absurd hx h
  | infinite negative =>
    rw [text, hx]
    exact ofText?_infinite hx
  | finite negative units =>
    rw [text, hx]
    exact ofText?_finite hx (Decimal.nearestBits_shortest units)

theorem isWritten_text {x : Number} (h : x.exact ≠ .nan) : ∀ c ∈ x.text.toList, IsWritten c := by
  cases hx : x.exact with
  | nan => exact absurd hx h
  | infinite negative =>
    rw [text, hx]
    exact @isWritten_signed _ ['i', 'n', 'f'] (by simp [IsWritten])
  | finite negative units =>
    rw [text, hx]
    exact isWritten_signed (isWritten_positional _)

/-! ## What a program writes -/

theorem exact_negativeZero : exact (-0) = .finite true 0 := by decide +kernel

theorem eq_negativeZero_iff {x : Number} : x = -0 ↔ x.exact = .finite true 0 := by
  constructor
  · rintro rfl
    exact exact_negativeZero
  · intro hx
    rw [eq_ofMagnitude hx, eq_ofMagnitude exact_negativeZero]

/-- The positional form of a natural number. -/
theorem positional_natural (n : Nat) : Decimal.positional ⟨n, 0⟩ = Nat.toDigits 10 n := by
  simp [Decimal.positional]

/-- What a program writes is read as the number, but zero without a sign. -/
theorem ofText?_plainText {x : Number} (h : x.exact ≠ .nan) :
    ofText? x.plainText = some (if x = -0 then 0 else x) := by
  by_cases hzero : x = -0
  · rw [if_pos hzero, hzero]
    decide +kernel
  · rw [if_neg hzero]
    unfold plainText
    split
    · rename_i negative units hx
      split
      · rename_i hwhole
        have hsign : (negative && decide (units ≠ 0)) = negative := by
          cases negative with
          | false => rfl
          | true =>
            have hunits : units ≠ 0 := fun hunits => hzero (eq_negativeZero_iff.2 (hunits ▸ hx))
            exact decide_eq_true hunits
        have hbits : Decimal.nearestBits ⟨units / Exact.one, 0⟩ = Exact.nearestBits units 1 := by
          rw [Decimal.nearestBits_natural, Nat.div_mul_cancel (Nat.dvd_of_mod_eq_zero hwhole.1)]
        rw [hsign, ← positional_natural]
        exact ofText?_finite hx hbits
      · exact ofText?_text h
    · exact ofText?_text h

theorem isWritten_plainText {x : Number} (h : x.exact ≠ .nan) :
    ∀ c ∈ x.plainText.toList, IsWritten c := by
  unfold plainText
  split
  · split
    · rw [← positional_natural]
      exact isWritten_signed (isWritten_positional _)
    · exact isWritten_text h
  · exact isWritten_text h

theorem trim_of_isWritten {text : String} (h : ∀ c ∈ text.toList, IsWritten c) :
    Text.trim text = text := by
  have hdrop : ∀ front : List Char, (∀ c ∈ front, IsWritten c) →
      front.dropWhile Text.isBlank = front := by
    intro front hfront
    cases front with
    | nil => rfl
    | cons c front =>
      have hc := (hfront c List.mem_cons_self).not_blank
      exact List.dropWhile_cons_of_neg (by simp [hc])
  rw [Text.trim, hdrop _ h, Text.dropFinal, hdrop _ fun c hc => h c (List.mem_reverse.1 hc),
    List.reverse_reverse, String.ofList_toList]

/-- Zero without a sign equals zero. -/
theorem withoutSign_beq {x : Number} (h : x.isNaN = false) :
    ((if x = -0 then 0 else x : Number) == x) = true := by
  have hne : x ≠ Float.nan := by
    rintro rfl
    exact absurd h (by decide +kernel)
  have hzero : (0 : Number) ≠ Float.nan := by decide +kernel
  rw [Float.beq_iff_ne_nan_and_eq]
  split
  · rename_i hsign
    exact ⟨hzero, hne, .inr (.inl ⟨rfl, hsign⟩)⟩
  · exact ⟨hne, hne, .inl rfl⟩

/-- What `send` writes, `scan` reads back: a number that is not NaN, as a program writes it, is read
as the number itself, but negative zero as zero. The written form that has no case of integers is
read as the number too, so the two denote equal numbers. -/
theorem scan_plainText {x : Number} (h : x.isNaN = false) :
    let back : Number := if x = -0 then 0 else x
    ofText? (Text.trim x.plainText) = some back ∧ ofText? (Text.trim x.text) = some x ∧
      (back == x) = true ∧
      (∀ (m : Machine) (p : Program) (index : Nat) (place : Position),
        m.state.lastValue = some x →
          m.keyword p .send index place = m.write x.plainText place) ∧
      ∀ (m : Machine) (rest : Input) (name : String) (place : Position),
        m.sink.flushFails = false → m.input = Input.ofText (x.plainText ++ "\n") ++ rest →
          m.scan name place = .done () ({ m with input := rest }.assign name back) := by
  intro back
  have hexact := exact_ne_nan h
  have hwritten := isWritten_plainText hexact
  have hread : ofText? (Text.trim x.plainText) = some back := by
    rw [trim_of_isWritten hwritten, ofText?_plainText hexact]
  refine ⟨hread, ?_, withoutSign_beq h, ?_, ?_⟩
  · rw [trim_of_isWritten (isWritten_text hexact), ofText?_text hexact]
  · intro m p index place hlast
    simp only [Machine.keyword, Machine.withLastValue, hlast]
  · intro m rest name place hflush hinput
    have hline := Machine.readLine_ofText (fun c hc => (hwritten c hc).not_lineEnd) hflush hinput
    simp only [Machine.scan, hline, Outcome.andThen, hread]

theorem scan_plainText_negativeZero :
    plainText (-0) = "0" ∧ ofText? (Text.trim (plainText (-0))) = some 0 ∧
      Machine.scan { input := Input.ofText "0\n" } "x" {} = .done () (Machine.assign {} "x" 0) := by
  have htext : plainText (-0) = "0" := by decide +kernel
  obtain ⟨hread, -, -, -, hscan⟩ := @scan_plainText (-0) (by decide +kernel)
  rw [if_pos rfl] at hread hscan
  refine ⟨htext, hread, hscan { input := Input.ofText "0\n" } [] "x" {} rfl ?_⟩
  rw [htext, List.append_nil]
  rfl

end Number
end VerbScript
