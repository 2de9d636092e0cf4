import Mathlib
import VerbScript.Proofs.Spacing.Text

/-!
# VerbScript.Proofs.Places.Text

What the places of tokens and scan errors mean in the source text.

* `Position.behind before`: the line and the byte column right behind a text.
* `Piece.commentOpen`: whether pieces end inside of a comment.
* `Piece.StartsAt source place`: a word, a parenthesis or a stray character of the source text starts
  at the place, and not in a comment.

`Piece.ofChars_stands` says where each piece stands in the text, and `Token.ofSource_placed` that all
that is read from a text, or the first error in it, is at such a place. The reader needs a look at a
comment only up to the first error, so that it is enough to know when a comment is open
(`ReadMode.Follows`).
-/

namespace VerbScript

namespace Position

/-- The place right behind a text: how many lines it ends, and how many bytes it has in the last
line. -/
def behind (before : List Char) : Position :=
  ⟨before.count '\n' + 1, ((before.rtakeWhile (· ≠ '\n')).map Char.utf8Size).sum + 1⟩

theorem behind_concat (before : List Char) (c : Char) :
    behind (before ++ [c]) = (behind before).advance c := by
  by_cases hc : c = '\n'
  · subst hc
    simp [behind, advance]
  · simp [behind, advance, hc]
    omega

end Position

namespace Piece

/-! ## Where pieces stand -/

theorem apart_nil (back : List Char) : Apart [] back := by
  intro c hc
  cases hc

/-- The piece stands in the text between two others. A word is not part of a longer one. -/
structure Stands (text before : List Char) (piece : Piece) (after : List Char) : Prop where
  text_eq : text = before ++ (piece.text.toList ++ after)
  proper : piece.Proper
  start : Apart before (piece.text.toList ++ after)
  finish : Apart piece.text.toList after

theorem beginsWord_append {before : List Char} (h : before ≠ []) (after : List Char) :
    beginsWord (before ++ after) = beginsWord before := by
  cases before with
  | nil => exact absurd rfl h
  | cons c before => rfl

theorem Stands.cons {c : Char} {text before after : List Char} {piece : Piece}
    (h : Stands text before piece after)
    (hc : before = [] → isLetter c = true → beginsWord text = false) :
    Stands (c :: text) (c :: before) piece after where
  text_eq := by rw [h.text_eq, List.cons_append]
  proper := h.proper
  start := by
    intro d hd hletter
    cases before with
    | nil =>
      cases hd
      rw [← List.nil_append (piece.text.toList ++ after), ← h.text_eq]
      exact hc rfl hletter
    | cons => exact h.start d hd hletter
  finish := h.finish

theorem Stands.join {c : Char} {text letters after : List Char}
    (h : Stands text [] (.word letters) after) (hc : isLetter c = true) :
    Stands (c :: text) [] (.word (c :: letters)) after where
  text_eq := by simpa [Piece.text] using h.text_eq
  proper := IsWord.cons hc h.proper
  start := apart_nil _
  finish := by
    have hfinish := h.finish
    obtain ⟨d, letters, rfl⟩ := List.exists_cons_of_ne_nil h.proper.1
    simpa [Piece.text, Apart] using hfinish

/-- What a character is by itself: nothing, or a piece of its own unless it is a letter in front of
another one. -/
theorem ofChars_cons (c : Char) (text : List Char) :
    (isLetter c = false ∧ (∀ front, split (c :: front) = split front) ∧
      ∀ place, ofChars place (c :: text) = ofChars (place.advance c) text) ∨
    (∃ piece : Piece, piece.Proper ∧ piece.text.toList = [c] ∧
      (isLetter c = true → beginsWord text = false) ∧
      (∀ front, (isLetter c = true → beginsWord front = false) →
        split (c :: front) = piece :: split front) ∧
      ∀ place, ofChars place (c :: text) = ⟨piece, place⟩ :: ofChars (place.advance c) text) ∨
    (isLetter c = true ∧ beginsWord text = true) := by
  cases hletter : isLetter c with
  | true =>
    cases hbegins : beginsWord text with
    | true => exact .inr (.inr ⟨rfl, rfl⟩)
    | false =>
      refine .inr (.inl ⟨.word [c], .singleton hletter, String.toList_ofList, fun _ => rfl,
        fun front hfront => ?_, fun place => ?_⟩)
      · simp only [split, hletter, hfront rfl, ↓reduceIte, join]
      · simp only [ofChars, hletter, ↓reduceIte]
        exact consLetter_alone hbegins place
  | false =>
    simp only [split, ofChars, hletter, Bool.false_eq_true, ↓reduceIte]
    split
    · exact .inl ⟨trivial, fun _ => rfl, fun _ => rfl⟩
    · rename_i hseparator
      refine .inr (.inl ?_)
      split
      · rename_i hopening
        exact ⟨.opening, trivial, by rw [hopening]; rfl, False.elim, fun _ _ => rfl, fun _ => rfl⟩
      · split
        · rename_i hclosing
          exact ⟨.closing, trivial, by rw [hclosing]; rfl, False.elim, fun _ _ => rfl, fun _ => rfl⟩
        · rename_i hopening hclosing
          refine ⟨.stray c, ⟨hletter, Bool.eq_false_iff.2 hseparator, hopening, hclosing⟩, ?_,
            False.elim, fun _ _ => rfl, fun _ => rfl⟩
          exact String.toList_singleton c

/-- A letter in front of a word belongs to it. -/
theorem ofChars_joined {c : Char} {text letters : List Char} {rest : List (Located Piece)}
    {place : Position} (hc : isLetter c = true)
    (h : ofChars (place.advance c) text = ⟨.word letters, place.advance c⟩ :: rest) :
    ofChars place (c :: text) = ⟨.word (c :: letters), place⟩ :: rest := by
  simp only [ofChars, hc, h, consLetter, ↓reduceIte]

/-- Every piece stands in the text, behind a text with the pieces in front of it. -/
theorem ofChars_stands {text seen : List Char} {front back : List (Located Piece)}
    {piece : Located Piece} (h : ofChars (.behind seen) text = front ++ piece :: back) :
    ∃ before after, Stands text before piece.value after ∧
      split before = front.map Located.value ∧ piece.position = .behind (seen ++ before) := by
  induction text generalizing seen front piece back with
  | nil => simp [ofChars] at h
  | cons c text ih =>
    have hseen : (Position.behind seen).advance c = .behind (seen ++ [c]) :=
      (Position.behind_concat seen c).symm
    rcases ofChars_cons c text with ⟨hletter, hsplit, hpieces⟩ |
      ⟨own, hproper, htext, halone, hsplit, hpieces⟩ | ⟨hletter, hbegins⟩
    · rw [hpieces, hseen] at h
      obtain ⟨before, after, hstands, hfront, hplace⟩ := ih h
      refine ⟨c :: before, after, hstands.cons fun _ hc => ?_, ?_, ?_⟩
      · rw [hletter] at hc
        cases hc
      · rw [hsplit, hfront]
      · rw [hplace, List.append_assoc, List.singleton_append]
    · rw [hpieces, hseen] at h
      cases front with
      | nil =>
        cases h
        refine ⟨[], text, ⟨?_, hproper, apart_nil _, ?_⟩, rfl, by rw [List.append_nil]⟩
        · rw [htext]
          rfl
        · rw [htext]
          rintro d ⟨⟩ hd
          exact halone hd
      | cons first front =>
        obtain ⟨rfl, hrest⟩ := List.cons.inj h
        obtain ⟨before, after, hstands, hfront, hplace⟩ := ih hrest
        refine ⟨c :: before, after, hstands.cons fun _ => halone, ?_, ?_⟩
        · rw [hsplit before, hfront, List.map_cons]
          intro hc
          cases before with
          | nil => rfl
          | cons d before =>
            rw [← beginsWord_append (List.cons_ne_nil d before), ← hstands.text_eq]
            exact halone hc
        · rw [hplace, List.append_assoc, List.singleton_append]
    · obtain ⟨letters, rest, hword⟩ := ofChars_beginsWord hbegins ((Position.behind seen).advance c)
      rw [ofChars_joined hletter hword] at h
      rw [hseen] at hword
      cases front with
      | nil =>
        cases h
        obtain ⟨before, after, hstands, hfront, -⟩ := @ih _ [] _ _ hword
        -- the rest of the word is at the very beginning of the text
        have hbefore : before = [] := by
          by_contra hne
          rw [hstands.text_eq, beginsWord_append hne] at hbegins
          obtain ⟨_, _, hsplit⟩ := split_beginsWord hbegins
          rw [hsplit] at hfront
          cases hfront
        subst hbefore
        exact ⟨[], after, hstands.join hletter, rfl, by rw [List.append_nil]⟩
      | cons first front =>
        obtain ⟨rfl, hrest⟩ := List.cons.inj h
        obtain ⟨before, after, hstands, hfront, hplace⟩ :=
          @ih _ (⟨.word letters, _⟩ :: front) _ _ (by rw [hword, hrest]; rfl)
        have hne : before ≠ [] := by
          rintro rfl
          cases hfront
        rw [hstands.text_eq, beginsWord_append hne] at hbegins
        refine ⟨c :: before, after, hstands.cons fun h => absurd h hne, ?_, ?_⟩
        · simp only [split, hletter, hbegins, hfront, join, List.map_cons, ↓reduceIte]
        · rw [hplace, List.append_assoc, List.singleton_append]

/-! ## Comments -/

/-- Whether a comment is open behind a piece, as one was open before it or not. -/
def comments (isOpen : Bool) (piece : Piece) : Bool :=
  if isOpen then decide (piece ≠ .word Vocabulary.commentEnd.toList)
  else decide (piece = .word Vocabulary.commentStart.toList)

/-- Whether a comment is open behind the pieces. -/
def commentOpen (pieces : List Piece) : Bool := pieces.foldl comments false

theorem commentOpen_concat (pieces : List Piece) (piece : Piece) :
    commentOpen (pieces ++ [piece]) = comments (commentOpen pieces) piece := by
  rw [commentOpen, List.foldl_append]
  rfl

theorem comments_eq_false {piece : Piece} (h : piece.text ≠ Vocabulary.commentStart) :
    comments false piece = false := by
  refine decide_eq_false ?_
  rintro rfl
  exact h String.ofList_toList

/-- A word, a parenthesis or a stray character starts at the place, outside of comments. -/
def StartsAt (source : String) (place : Position) : Prop :=
  ∃ before piece after, Stands source.toList before piece after ∧
    commentOpen (split before) = false ∧ place = .behind before

/-- One of the pieces, outside of comments, is at the place. -/
def Outside (pieces : List (Located Piece)) (place : Position) : Prop :=
  ∃ front piece back, pieces = front ++ piece :: back ∧
    commentOpen (front.map Located.value) = false ∧ place = piece.position

theorem Outside.startsAt {source : String} {place : Position} (h : Outside (ofSource source) place) :
    StartsAt source place := by
  obtain ⟨front, piece, back, hpieces, hcomment, rfl⟩ := h
  obtain ⟨before, after, hstands, hfront, hplace⟩ := @ofChars_stands _ [] _ _ _ hpieces
  exact ⟨before, piece.value, after, hstands, hfront ▸ hcomment, hplace⟩

end Piece

namespace Meaning

/-- A word with this meaning begins no comment, and neither does a word that must follow it. -/
def Plain : Meaning → Prop
  | .nothing => True
  | .comment => False
  | .token _ => True
  | .phrase _ _ next more => Vocabulary.commentStart ∉ next :: more

theorem ofOperator_plain (word : String) (t : Token) : (ofOperator word t).Plain := by
  unfold ofOperator Vocabulary.continuation?
  split
  · rename_i next more hwords
    split at hwords
    · cases hwords
      exact (by decide : Vocabulary.commentStart ∉ ["and", "drop"])
    · cases hwords
  · trivial

theorem ofWord_plain {word : String} (h : word ≠ Vocabulary.commentStart) : (ofWord word).Plain := by
  rcases canonical_eq_or_keyword word with hcanonical | ⟨k, hk⟩
  · rw [ofWord, hcanonical]
    unfold ofCanonical
    rw [if_neg h]
    split
    · trivial
    split
    · trivial
    split
    · trivial
    split
    · exact ofOperator_plain _ _
    split
    · exact ofOperator_plain _ _
    split
    · trivial
    split
    · trivial
    split
    · trivial
    · trivial
  · rw [hk]
    trivial

end Meaning

/-! ## Tokens and errors -/

open Piece (commentOpen comments Outside)

/-- The reader is in a comment exactly if one is open, and a phrase that it is in began outside of
comments and has no comment in it. -/
def ReadMode.Follows (pieces : List (Located Piece)) (seen : List Piece) : ReadMode → Prop
  | .code => commentOpen seen = false
  | .comment => commentOpen seen = true
  | .phrase p => commentOpen seen = false ∧ Outside pieces p.start ∧
      Vocabulary.commentStart ∉ p.next :: p.more

namespace Token

/-- The place of the token or of the error is such a place. -/
def Item.At (Q : Position → Prop) : Item → Prop
  | .ok t => Q t.position
  | .error e => Q e.position

/-- What is read is at such places, or the error is. -/
def Placed (Q : Position → Prop) : Except (Located ScanError) (List (Located Token)) → Prop
  | .ok ts => ∀ t ∈ ts, Q t.position
  | .error e => Q e.position

theorem collect_append_placed {Q : Position → Prop} {items rest : List Item}
    (hitems : ∀ item ∈ items, item.At Q)
    (hrest : (∀ e, .error e ∉ items) → Placed Q (collect rest)) :
    Placed Q (collect (items ++ rest)) := by
  induction items with
  | nil => exact hrest fun _ => List.not_mem_nil
  | cons item items ih =>
    cases item with
    | error e => exact hitems _ List.mem_cons_self
    | ok t =>
      have hmore := ih (fun item h => hitems item (List.mem_cons_of_mem _ h)) fun hnone =>
        hrest fun e => by simpa using hnone e
      simp only [List.cons_append, collect]
      cases hcollect : collect (items ++ rest) with
      | error e =>
        rw [hcollect] at hmore
        exact hmore
      | ok ts =>
        rw [hcollect] at hmore
        intro u hu
        rcases List.mem_cons.1 hu with rfl | hu
        · exact hitems _ List.mem_cons_self
        · exact hmore u hu

section Read

variable {pieces seen rest : List (Located Piece)} {piece : Located Piece}
  (hpieces : pieces = seen ++ piece :: rest)
include hpieces

theorem readCode_placed (h : commentOpen (seen.map Located.value) = false) :
    (∀ item ∈ (readCode piece.value piece.position).1, item.At (Outside pieces)) ∧
      ((∀ e, .error e ∉ (readCode piece.value piece.position).1) →
        (readCode piece.value piece.position).2.Follows pieces
          ((seen ++ [piece]).map Located.value)) := by
  have hplace : Outside pieces piece.position := ⟨seen, piece, rest, hpieces, h, rfl⟩
  have hseen : commentOpen ((seen ++ [piece]).map Located.value) = comments false piece.value := by
    rw [List.map_append, List.map_singleton, Piece.commentOpen_concat, h]
  have hlater : piece.value.text ≠ Vocabulary.commentStart →
      commentOpen ((seen ++ [piece]).map Located.value) = false := fun hne =>
    hseen.trans (Piece.comments_eq_false hne)
  obtain ⟨value, place⟩ := piece
  cases value with
  | opening => exact ⟨by simpa [readCode, Item.At] using hplace, fun _ => hseen⟩
  | closing => exact ⟨by simpa [readCode, Item.At] using hplace, fun _ => hseen⟩
  | stray c =>
    exact ⟨by simpa [readCode, Item.At] using hplace, fun hnone => absurd List.mem_cons_self (hnone _)⟩
  | word letters =>
    simp only [readCode]
    by_cases hword : String.ofList letters = Vocabulary.commentStart
    · have hmeaning : Meaning.ofWord Vocabulary.commentStart = .comment := by decide
      rw [hword, hmeaning]
      refine ⟨by simp, fun _ => hseen.trans (decide_eq_true ?_)⟩
      rw [← hword, String.toList_ofList]
    · have hplain := Meaning.ofWord_plain hword
      cases hmeaning : Meaning.ofWord (String.ofList letters) with
      | nothing => exact ⟨by simp, fun _ => hlater hword⟩
      | comment =>
        rw [hmeaning] at hplain
        exact hplain.elim
      | token t => exact ⟨by simpa [Item.At] using hplace, fun _ => hlater hword⟩
      | phrase t keyword next more =>
        rw [hmeaning] at hplain
        exact ⟨by simp, fun _ => ⟨hlater hword, hplace, hplain⟩⟩

omit hpieces in
theorem readComment_follows (h : commentOpen (seen.map Located.value) = true) :
    (readComment piece.value).Follows pieces ((seen ++ [piece]).map Located.value) := by
  have hseen : commentOpen ((seen ++ [piece]).map Located.value) = comments true piece.value := by
    rw [List.map_append, List.map_singleton, Piece.commentOpen_concat, h]
  obtain ⟨value, place⟩ := piece
  cases value with
  | word letters =>
    simp only [readComment]
    split
    · rename_i hword
      refine hseen.trans (decide_eq_false ?_)
      rw [← hword, String.toList_ofList]
      exact fun hne => hne rfl
    · rename_i hword
      refine hseen.trans (decide_eq_true ?_)
      rintro ⟨⟩
      exact hword String.ofList_toList
  | opening => exact hseen
  | closing => exact hseen
  | stray c => exact hseen

omit hpieces in
theorem readPhrase_placed {p : Phrase}
    (h : (ReadMode.phrase p).Follows pieces (seen.map Located.value)) :
    (∀ item ∈ (readPhrase p piece.value).1, item.At (Outside pieces)) ∧
      ((∀ e, .error e ∉ (readPhrase p piece.value).1) →
        (readPhrase p piece.value).2.Follows pieces ((seen ++ [piece]).map Located.value)) := by
  obtain ⟨hclosed, hplace, hwords⟩ := h
  have hlater : piece.value.text ≠ Vocabulary.commentStart →
      commentOpen ((seen ++ [piece]).map Located.value) = false := by
    intro hne
    rw [List.map_append, List.map_singleton, Piece.commentOpen_concat, hclosed]
    exact Piece.comments_eq_false hne
  unfold readPhrase
  split
  · rename_i hfiller
    refine ⟨by simp, fun _ => ⟨hlater ?_, hplace, hwords⟩⟩
    intro hword
    rw [hword] at hfiller
    exact absurd hfiller (by decide)
  · split
    · rename_i hnext
      have hne : piece.value.text ≠ Vocabulary.commentStart := by
        rintro hword
        exact hwords (by rw [← hword, hnext]; exact List.mem_cons_self)
      split
      · exact ⟨by simpa [Item.At] using hplace, fun _ => hlater hne⟩
      · rename_i next more hmore
        rw [hmore] at hwords
        exact ⟨by simp, fun _ =>
          ⟨hlater hne, hplace, fun hmem => hwords (List.mem_cons_of_mem _ hmem)⟩⟩
    · exact ⟨by simpa [brokenPhrase, Item.At] using hplace,
        fun hnone => absurd List.mem_cons_self (hnone _)⟩

/-- What is read at a piece is at that piece or at the beginning of the phrase. -/
theorem read_placed {mode : ReadMode} (h : mode.Follows pieces (seen.map Located.value)) :
    (∀ item ∈ (read mode piece).1, item.At (Outside pieces)) ∧
      ((∀ e, .error e ∉ (read mode piece).1) →
        (read mode piece).2.Follows pieces ((seen ++ [piece]).map Located.value)) := by
  cases mode with
  | code => exact readCode_placed hpieces h
  | comment => exact ⟨by simp [read], fun _ => readComment_follows h⟩
  | phrase p => exact readPhrase_placed h

end Read

theorem collect_stream_placed {pieces seen rest : List (Located Piece)}
    (hpieces : pieces = seen ++ rest) {mode : ReadMode}
    (h : mode.Follows pieces (seen.map Located.value)) :
    Placed (Outside pieces) (collect (stream mode rest)) := by
  induction rest generalizing seen mode with
  | nil =>
    cases mode with
    | code => simp [stream, finish, collect, Placed]
    | comment => simp [stream, finish, collect, Placed]
    | phrase p => exact h.2.1
  | cons piece rest ih =>
    obtain ⟨hitems, hnext⟩ := read_placed hpieces h
    refine collect_append_placed hitems fun hnone => ?_
    exact ih (by rw [hpieces, List.append_assoc, List.singleton_append]) (hnext hnone)

/-- All tokens of a source text are where a piece of it starts outside of comments; if it has no
tokens, then the first error in it is. -/
theorem ofSource_placed (source : String) : Placed (Piece.StartsAt source) (ofSource source) := by
  have h : Placed (Outside (Piece.ofSource source)) (ofSource source) :=
    @collect_stream_placed _ [] _ rfl .code rfl
  cases hresult : ofSource source with
  | error e =>
    rw [hresult] at h
    exact Outside.startsAt h
  | ok ts =>
    rw [hresult] at h
    exact fun t ht => (h t ht).startsAt

end Token
end VerbScript
