import VerbScript.Token.Stream

/-!
# VerbScript.Proofs.Syntax.Spelling

Which tokens a text can spell.

A text falls into pieces, and any pieces that can occur can be written one after another with blanks
between them. Pieces spell tokens in the same way, so `Token.exists_ofSource_iff` says exactly which
lists of tokens are read from some text: each token must be readable by itself.
-/

namespace VerbScript

namespace Position

/-- The order of reading. -/
def Precedes (p q : Position) : Prop :=
  p.line < q.line ∨ p.line = q.line ∧ p.column < q.column

theorem Precedes.trans {p q r : Position} (hpq : p.Precedes q) (hqr : q.Precedes r) :
    p.Precedes r := by
  unfold Precedes at *
  omega

theorem Precedes.ne {p q : Position} (h : p.Precedes q) : q ≠ p := by
  rintro rfl
  unfold Precedes at h
  omega

theorem precedes_advance (p : Position) (c : Char) : p.Precedes (p.advance c) := by
  have hsize : 0 < c.utf8Size := c.utf8Size_pos
  unfold Precedes advance
  split <;> simp only [true_and] <;> omega

end Position

/-! ## Pieces -/

namespace Piece

def IsWord (letters : List Char) : Prop :=
  letters ≠ [] ∧ ∀ c ∈ letters, isLetter c = true

/-- Pieces that occur in texts: a character that means something is never stray. -/
def Proper : Piece → Prop
  | .word letters => IsWord letters
  | .opening | .closing => True
  | .stray c => isLetter c = false ∧ isSeparator c = false ∧ c ≠ '(' ∧ c ≠ ')'

theorem isWord_iff (letters : List Char) :
    (!letters.isEmpty && letters.all isLetter) = true ↔ IsWord letters := by
  simp [IsWord]

instance (letters : List Char) : Decidable (IsWord letters) :=
  decidable_of_iff _ (isWord_iff letters)

theorem IsWord.singleton {c : Char} (hc : isLetter c = true) : IsWord [c] := by
  simp [IsWord, hc]

theorem IsWord.cons {c : Char} {letters : List Char} (hc : isLetter c = true)
    (h : IsWord letters) : IsWord (c :: letters) := by
  refine ⟨List.cons_ne_nil _ _, ?_⟩
  intro d hd
  rcases List.mem_cons.1 hd with rfl | hd
  · exact hc
  · exact h.2 d hd

/-- What a character does to the pieces of the text behind it: nothing, or it is a piece of its own,
or it joins a word that starts right there. -/
theorem ofChars_cons_cases (place : Position) (c : Char) (text : List Char) :
    ofChars place (c :: text) = ofChars (place.advance c) text ∨
    (∃ piece : Piece, piece.Proper ∧
      ofChars place (c :: text) = ⟨piece, place⟩ :: ofChars (place.advance c) text) ∨
    ∃ letters rest, isLetter c = true ∧
      ofChars (place.advance c) text = ⟨.word letters, place.advance c⟩ :: rest ∧
      ofChars place (c :: text) = ⟨.word (c :: letters), place⟩ :: rest := by
  simp only [ofChars]
  split
  · rename_i hc
    unfold consLetter
    split
    · rename_i letters start rest heq
      split
      · rename_i hstart
        exact .inr (.inr ⟨letters, rest, hc, hstart ▸ heq, rfl⟩)
      · exact .inr (.inl ⟨.word [c], IsWord.singleton hc, by rw [heq]⟩)
    · exact .inr (.inl ⟨.word [c], IsWord.singleton hc, rfl⟩)
  rename_i hletter
  split
  · exact .inl rfl
  rename_i hseparator
  split
  · exact .inr (.inl ⟨.opening, trivial, rfl⟩)
  split
  · exact .inr (.inl ⟨.closing, trivial, rfl⟩)
  · rename_i hopening hclosing
    simp only [Bool.not_eq_true] at hletter hseparator
    exact .inr (.inl ⟨.stray c, ⟨hletter, hseparator, hopening, hclosing⟩, rfl⟩)

theorem ofChars_proper (place : Position) (text : List Char) :
    ∀ piece ∈ ofChars place text, piece.value.Proper := by
  induction text generalizing place with
  | nil =>
    intro piece hpiece
    cases hpiece
  | cons c text ih =>
    intro piece hpiece
    rcases ofChars_cons_cases place c text with h | ⟨_, hproper, h⟩ | ⟨letters, rest, hc, hrest, h⟩
      <;> rw [h] at hpiece
    · exact ih _ piece hpiece
    · rcases List.mem_cons.1 hpiece with rfl | hpiece
      · exact hproper
      · exact ih _ piece hpiece
    · have hword : ∀ piece ∈ ⟨.word letters, place.advance c⟩ :: rest, piece.value.Proper :=
        hrest ▸ ih (place.advance c)
      rcases List.mem_cons.1 hpiece with rfl | hpiece
      · exact IsWord.cons hc (hword _ List.mem_cons_self)
      · exact hword piece (List.mem_cons_of_mem _ hpiece)

/-- No piece starts before the text does. -/
theorem start_le_of_mem_ofChars {place : Position} {text : List Char} {piece : Located Piece}
    (h : piece ∈ ofChars place text) :
    piece.position = place ∨ place.Precedes piece.position := by
  induction text generalizing place with
  | nil => cases h
  | cons c text ih =>
    have hbehind : piece ∈ ofChars (place.advance c) text → place.Precedes piece.position := by
      intro h
      rcases ih h with h | h
      · exact h ▸ place.precedes_advance c
      · exact (place.precedes_advance c).trans h
    rcases ofChars_cons_cases place c text with heq | ⟨_, -, heq⟩ | ⟨_, _, -, hrest, heq⟩
      <;> rw [heq] at h
    · exact .inr (hbehind h)
    · rcases List.mem_cons.1 h with rfl | h
      · exact .inl rfl
      · exact .inr (hbehind h)
    · rcases List.mem_cons.1 h with rfl | h
      · exact .inl rfl
      · exact .inr (hbehind (hrest ▸ List.mem_cons_of_mem _ h))

/-- A letter does not join the word behind a blank. -/
theorem consLetter_blank (c : Char) (place : Position) (text : List Char) :
    consLetter c place (ofChars ((place.advance c).advance ' ') text) =
      ⟨.word [c], place⟩ :: ofChars ((place.advance c).advance ' ') text := by
  unfold consLetter
  split
  · rename_i letters start rest heq
    have hne : start ≠ place.advance c := by
      have hlater := (place.advance c).precedes_advance ' '
      rcases start_le_of_mem_ofChars (heq ▸ List.mem_cons_self) with h | h
      · rw [show start = _ from h]
        exact hlater.ne
      · exact (hlater.trans h).ne
    rw [if_neg hne]
  · rfl

theorem ofChars_word {letters : List Char} (h : IsWord letters) (place : Position)
    (text : List Char) :
    ∃ next, ofChars place (letters ++ ' ' :: text) =
      ⟨.word letters, place⟩ :: ofChars next text := by
  obtain ⟨hne, hletters⟩ := h
  induction letters generalizing place with
  | nil => exact absurd rfl hne
  | cons c letters ih =>
    have hc : isLetter c = true := hletters c List.mem_cons_self
    cases letters with
    | nil =>
      refine ⟨(place.advance c).advance ' ', ?_⟩
      simp only [List.cons_append, List.nil_append, ofChars, hc, ↓reduceIte]
      exact consLetter_blank c place text
    | cons d letters =>
      obtain ⟨next, hnext⟩ := ih (place.advance c) (List.cons_ne_nil _ _)
        fun e he => hletters e (List.mem_cons_of_mem _ he)
      refine ⟨next, ?_⟩
      rw [List.cons_append, ofChars, if_pos hc, hnext]
      simp [consLetter]

theorem ofChars_piece {piece : Piece} (h : piece.Proper) (place : Position) (text : List Char) :
    ∃ next, ofChars place (piece.text.toList ++ ' ' :: text) =
      ⟨piece, place⟩ :: ofChars next text := by
  cases piece with
  | word letters =>
    simp only [Piece.text, String.toList_ofList]
    exact ofChars_word h place text
  | opening => exact ⟨_, rfl⟩
  | closing => exact ⟨_, rfl⟩
  | stray c =>
    obtain ⟨hletter, hseparator, hopening, hclosing⟩ := h
    refine ⟨(place.advance c).advance ' ', ?_⟩
    have hblank : isLetter ' ' = false ∧ isSeparator ' ' = true := by decide
    simp [Piece.text, ofChars, hletter, hseparator, hopening, hclosing, hblank]

/-- The pieces one after another, with a blank behind each. -/
def spell (pieces : List Piece) : List Char :=
  pieces.flatMap fun piece => piece.text.toList ++ [' ']

theorem ofChars_spell {pieces : List Piece} (h : ∀ piece ∈ pieces, piece.Proper)
    (place : Position) : (ofChars place (spell pieces)).map Located.value = pieces := by
  induction pieces generalizing place with
  | nil => rfl
  | cons piece pieces ih =>
    obtain ⟨next, hnext⟩ := ofChars_piece (h piece List.mem_cons_self) place (spell pieces)
    have hspell : spell (piece :: pieces) = piece.text.toList ++ ' ' :: spell pieces := by
      simp [spell]
    rw [hspell, hnext, List.map_cons, ih fun piece hp => h piece (List.mem_cons_of_mem _ hp)]

end Piece

/-! ## Tokens -/

namespace Token

/-- Tokens that texts can spell. -/
def Readable : Token → Prop
  | .punctuation c => c = '(' ∨ c = ')'
  | .digit value => value ≤ Vocabulary.decimalPoint
  | .name text => Piece.IsWord text.toList ∧ Meaning.ofWord text = .token (.name text)
  | _ => True

end Token

namespace Vocabulary

theorem digit?_le {word : String} {value : Nat} (h : digit? word = some value) :
    value ≤ decimalPoint := by
  obtain ⟨hlt, -⟩ := List.findIdx?_eq_some_iff_getElem.1 h
  exact Nat.le_of_lt_succ hlt

end Vocabulary

namespace Meaning

/-- The token that a word stands for, or begins to spell. -/
def token? : Meaning → Option Token
  | .token t | .phrase t _ _ _ => some t
  | .nothing | .comment => none

@[simp] theorem token?_ofOperator (word : String) (t : Token) :
    (ofOperator word t).token? = some t := by
  unfold ofOperator
  split <;> rfl

/-- A second spelling is always one of a keyword. -/
theorem canonical_eq_or_keyword (word : String) :
    Vocabulary.canonical word = word ∨ ∃ k, ofWord word = .token (.keyword k) := by
  unfold ofWord Vocabulary.canonical
  cases h : Vocabulary.synonyms.lookup word with
  | none => exact .inl rfl
  | some spelling =>
    obtain ⟨_, _, hsplit, -⟩ := List.lookup_eq_some_iff.1 h
    have hmem : (word, spelling) ∈ Vocabulary.synonyms := by simp [hsplit]
    simp only [Vocabulary.synonyms, List.mem_cons, Prod.mk.injEq, List.not_mem_nil,
      or_false] at hmem
    right
    rcases hmem with ⟨-, rfl⟩ | ⟨-, rfl⟩ | ⟨-, rfl⟩ | ⟨-, rfl⟩
    · exact ⟨.fix, rfl⟩
    · exact ⟨.jam, rfl⟩
    · exact ⟨.write, rfl⟩
    · exact ⟨.check, rfl⟩

theorem readable_ofWord {word : String} (hword : Piece.IsWord word.toList) {t : Token}
    (h : (ofWord word).token? = some t) : t.Readable := by
  rcases canonical_eq_or_keyword word with hcanonical | ⟨k, hk⟩
  · by_cases hname : ofWord word = .token (.name word)
    · rw [hname] at h
      cases h
      exact ⟨hword, hname⟩
    · -- In every table but the digits the token carries nothing that could be wrong.
      unfold ofWord at h hname
      rw [hcanonical] at h hname
      unfold ofCanonical at h hname
      split at h
      · cases h
      split at h
      · cases h
      split at h
      · cases h
        trivial
      split at h
      · rename_i hdigit
        cases h
        exact Vocabulary.digit?_le hdigit
      split at h
      · cases (token?_ofOperator _ _).symm.trans h
        trivial
      split at h
      · cases (token?_ofOperator _ _).symm.trans h
        trivial
      split at h
      · cases h
        trivial
      split at h
      · cases h
        trivial
      split at h
      · cases h
        trivial
      · simp_all
  · rw [hk] at h
    cases h
    trivial

end Meaning

/-- A phrase that has begun spells a token that texts can spell. -/
def ReadMode.Readable : ReadMode → Prop
  | .phrase p => p.token.Readable
  | .code | .comment => True

namespace Token

/-- A piece of code makes readable tokens, and a phrase it begins will. -/
theorem readCode_readable {piece : Piece} (hpiece : piece.Proper) (place : Position) :
    (∀ t, .ok t ∈ (readCode piece place).1 → t.value.Readable) ∧
      (readCode piece place).2.Readable := by
  cases piece with
  | opening => simp [readCode, Readable, ReadMode.Readable]
  | closing => simp [readCode, Readable, ReadMode.Readable]
  | stray c => simp [readCode, ReadMode.Readable]
  | word letters =>
    have hword : Piece.IsWord (String.ofList letters).toList := by
      rw [String.toList_ofList]
      exact hpiece
    have hreadable := fun t => @Meaning.readable_ofWord _ hword t
    simp only [readCode]
    cases hm : Meaning.ofWord (String.ofList letters) with
    | nothing => simp [ReadMode.Readable]
    | comment => simp [ReadMode.Readable]
    | token t =>
      have ht : t.Readable := hreadable t (by rw [hm]; rfl)
      simpa [ReadMode.Readable] using ht
    | phrase t keyword next more =>
      have ht : t.Readable := hreadable t (by rw [hm]; rfl)
      simpa [ReadMode.Readable] using ht

theorem readPhrase_readable {p : Phrase} (hp : p.token.Readable) (piece : Piece) :
    (∀ t, .ok t ∈ (readPhrase p piece).1 → t.value.Readable) ∧
      (readPhrase p piece).2.Readable := by
  unfold readPhrase
  split
  · simpa [ReadMode.Readable] using hp
  split
  · split <;> simpa [ReadMode.Readable] using hp
  · simp [brokenPhrase, ReadMode.Readable]

theorem read_readable {mode : ReadMode} (hmode : mode.Readable) {piece : Located Piece}
    (hpiece : piece.value.Proper) :
    (∀ t, .ok t ∈ (read mode piece).1 → t.value.Readable) ∧ (read mode piece).2.Readable := by
  cases mode with
  | code => exact readCode_readable hpiece _
  | comment =>
    refine ⟨by simp [read], ?_⟩
    simp only [read, readComment]
    split
    · split <;> trivial
    · trivial
  | phrase p => exact readPhrase_readable hmode _

theorem stream_readable {mode : ReadMode} (hmode : mode.Readable) {pieces : List (Located Piece)}
    (hpieces : ∀ piece ∈ pieces, piece.value.Proper) :
    ∀ t, .ok t ∈ stream mode pieces → t.value.Readable := by
  induction pieces generalizing mode with
  | nil =>
    intro t ht
    cases mode <;> simp [stream, finish, brokenPhrase] at ht
  | cons piece pieces ih =>
    intro t ht
    obtain ⟨hitems, hnext⟩ := read_readable hmode (hpieces piece List.mem_cons_self)
    rcases List.mem_append.1 ht with ht | ht
    · exact hitems t ht
    · exact ih hnext (fun piece hp => hpieces piece (List.mem_cons_of_mem _ hp)) t ht

theorem ok_mem_of_mem_collect {items : List Item} {ts : List (Located Token)}
    (h : collect items = .ok ts) : ∀ t ∈ ts, .ok t ∈ items := by
  induction items generalizing ts with
  | nil =>
    cases h
    simp
  | cons item items ih =>
    cases item with
    | error e => cases h
    | ok t =>
      simp only [collect] at h
      cases hc : collect items with
      | error e => simp [hc] at h
      | ok ts' =>
        simp only [hc, Except.ok.injEq] at h
        subst h
        intro u hu
        rcases List.mem_cons.1 hu with rfl | hu
        · exact List.mem_cons_self
        · exact List.mem_cons_of_mem _ (ih hc u hu)

theorem ofSource_readable {source : String} {ts : List (Located Token)}
    (h : ofSource source = .ok ts) : ∀ t ∈ ts, t.value.Readable := by
  intro t ht
  exact @stream_readable .code trivial _ (Piece.ofChars_proper _ _) t
    (ok_mem_of_mem_collect h t ht)

/-! ## Spelling a token -/

/-- Pieces that are read as the token wherever they stand in code. -/
def Spells (pieces : List Piece) (t : Token) : Prop :=
  (∀ piece ∈ pieces, piece.Proper) ∧
  ∀ (located more : List (Located Piece)), located.map Located.value = pieces →
    ∃ place, stream .code (located ++ more) = .ok ⟨t, place⟩ :: stream .code more

theorem spells_word {word : String} {t : Token} (hword : Piece.IsWord word.toList)
    (h : Meaning.ofWord word = .token t) : Spells [.word word.toList] t := by
  refine ⟨by simpa [Piece.Proper] using hword, ?_⟩
  intro located more hlocated
  obtain ⟨⟨_, place⟩, rfl, rfl⟩ := List.map_eq_singleton_iff.1 hlocated
  refine ⟨place, ?_⟩
  simp only [List.singleton_append, stream, read, readCode, String.ofList_toList, h]

theorem spells_opening : Spells [.opening] (.punctuation '(') := by
  refine ⟨by simp [Piece.Proper], ?_⟩
  intro located more hlocated
  obtain ⟨⟨_, place⟩, rfl, rfl⟩ := List.map_eq_singleton_iff.1 hlocated
  exact ⟨place, rfl⟩

theorem spells_closing : Spells [.closing] (.punctuation ')') := by
  refine ⟨by simp [Piece.Proper], ?_⟩
  intro located more hlocated
  obtain ⟨⟨_, place⟩, rfl, rfl⟩ := List.map_eq_singleton_iff.1 hlocated
  exact ⟨place, rfl⟩

/-- The only token that takes several words. -/
theorem spells_equal : Spells [.word "drag".toList, .word "and".toList, .word "drop".toList]
    (.binary .equal) := by
  have hwords : Piece.IsWord "drag".toList ∧ Piece.IsWord "and".toList ∧
      Piece.IsWord "drop".toList := by decide
  refine ⟨by simpa [Piece.Proper] using hwords, ?_⟩
  intro located more hlocated
  match located, hlocated with
  | [⟨_, place⟩, ⟨_, place₂⟩, ⟨_, place₃⟩], hlocated =>
    cases hlocated
    exact ⟨place, rfl⟩

theorem exists_spelling {t : Token} (ht : t.Readable) : ∃ pieces, Spells pieces t := by
  cases t with
  | punctuation c =>
    rcases ht with rfl | rfl
    · exact ⟨_, spells_opening⟩
    · exact ⟨_, spells_closing⟩
  | binary op =>
    cases op with
    | equal => exact ⟨_, spells_equal⟩
    | add => exact ⟨_, @spells_word "touch" _ (by decide) rfl⟩
    | subtract => exact ⟨_, @spells_word "trash" _ (by decide) rfl⟩
    | multiply => exact ⟨_, @spells_word "cross" _ (by decide) rfl⟩
    | divide => exact ⟨_, @spells_word "cut" _ (by decide) rfl⟩
    | floorDivide => exact ⟨_, @spells_word "crack" _ (by decide) rfl⟩
    | remainder => exact ⟨_, @spells_word "rip" _ (by decide) rfl⟩
    | less => exact ⟨_, @spells_word "pay" _ (by decide) rfl⟩
    | greater => exact ⟨_, @spells_word "charge" _ (by decide) rfl⟩
  | unary op =>
    cases op with
    | negate => exact ⟨_, @spells_word "turn" _ (by decide) rfl⟩
    | not => exact ⟨_, @spells_word "switch" _ (by decide) rfl⟩
    | paste => exact ⟨_, @spells_word "paste" _ (by decide) rfl⟩
    | giveBack => exact ⟨_, @spells_word "unlock" _ (by decide) rfl⟩
  | digit value =>
    have hword : ∀ value ≤ 10, Piece.IsWord (Vocabulary.digitWords.getD value "").toList ∧
        Meaning.ofWord (Vocabulary.digitWords.getD value "") = .token (.digit value) := by
      decide
    exact ⟨_, spells_word (hword value ht).1 (hword value ht).2⟩
  | keyword k =>
    have hmeaning : Meaning.ofWord k.word = .token (.keyword k) := by cases k <;> rfl
    exact ⟨_, spells_word (by cases k <;> decide) hmeaning⟩
  | structural word =>
    have hmeaning : Meaning.ofWord word.word = .token (.structural word) := by cases word <;> rfl
    exact ⟨_, spells_word (by cases word <;> decide) hmeaning⟩
  | label => exact ⟨_, @spells_word Vocabulary.labelWord _ (by decide) rfl⟩
  | pop => exact ⟨_, @spells_word Vocabulary.popWord _ (by decide) rfl⟩
  | name text => exact ⟨_, spells_word ht.1 ht.2⟩

/-- Readable tokens are the tokens of some pieces. -/
theorem exists_pieces {tokens : List Token} (h : ∀ t ∈ tokens, t.Readable) :
    ∃ pieces : List Piece, (∀ piece ∈ pieces, piece.Proper) ∧
      ∀ located : List (Located Piece), located.map Located.value = pieces →
        ∃ ts, collect (stream .code located) = .ok ts ∧ ts.map Located.value = tokens := by
  induction tokens with
  | nil =>
    refine ⟨[], by simp, ?_⟩
    intro located hlocated
    cases List.map_eq_nil_iff.1 hlocated
    exact ⟨[], rfl, rfl⟩
  | cons t tokens ih =>
    obtain ⟨first, hfirst, hspells⟩ := exists_spelling (h t List.mem_cons_self)
    obtain ⟨pieces, hpieces, hrest⟩ := ih fun t ht => h t (List.mem_cons_of_mem _ ht)
    refine ⟨first ++ pieces, ?_, ?_⟩
    · intro piece hpiece
      rcases List.mem_append.1 hpiece with hpiece | hpiece
      · exact hfirst piece hpiece
      · exact hpieces piece hpiece
    · intro located hlocated
      obtain ⟨front, more, rfl, hfront, hmore⟩ := List.map_eq_append_iff.1 hlocated
      obtain ⟨place, hplace⟩ := hspells front more hfront
      obtain ⟨ts, hts, hvalues⟩ := hrest more hmore
      refine ⟨⟨t, place⟩ :: ts, ?_, by rw [List.map_cons, hvalues]⟩
      rw [hplace, collect, hts]

/-- Exactly the lists of readable tokens are read from texts. -/
theorem exists_ofSource_iff (tokens : List Token) :
    (∃ source ts, ofSource source = .ok ts ∧ ts.map Located.value = tokens) ↔
      ∀ t ∈ tokens, t.Readable := by
  constructor
  · rintro ⟨source, ts, h, rfl⟩
    exact List.forall_mem_map.2 (ofSource_readable h)
  · intro h
    obtain ⟨pieces, hproper, hread⟩ := exists_pieces h
    obtain ⟨ts, hts, hvalues⟩ := hread _ (Piece.ofChars_spell hproper .first)
    refine ⟨String.ofList (Piece.spell pieces), ts, ?_, hvalues⟩
    rw [ofSource, streamOf, Piece.ofSource, String.toList_ofList]
    exact hts

end Token
end VerbScript
