import VerbScript.Proofs.Places.Lines

/-!
# VerbScript.Proofs.Places.Items

Where the items of a token stream stand, in bytes.

Every item is found at one piece of the text: a token at a word or a parenthesis that spells it, an
error at the character that does not belong there or at the word that begins the phrase. These pieces
are those that mean something where they are met in code (`Token.heads`). There is one item for each
of them, in the order of the text, also when reading goes on after an error (`Token.stream_found`).
The places of pieces grow (`Piece.ofChars_precedes`) and say how many bytes stand in front of them
(`Position.behind_eq`), so the items come at growing offsets (`Token.streamOf_offsets`).
-/

namespace VerbScript

namespace Text

/-- How many bytes a text has in UTF-8. -/
def byteSize (text : List Char) : Nat := (text.map Char.utf8Size).sum

/-- How many bytes of a text stand in front of its last line. -/
def lineStart (text : List Char) : Nat := byteSize (text.rdropWhile (· ≠ '\n'))

theorem byteSize_append (front back : List Char) :
    byteSize (front ++ back) = byteSize front + byteSize back := by
  simp [byteSize]

theorem byteSize_pos {text : List Char} (h : text ≠ []) : 0 < byteSize text := by
  obtain ⟨c, text, rfl⟩ := List.exists_cons_of_ne_nil h
  have hsize := c.utf8Size_pos
  simp only [byteSize, List.map_cons, List.sum_cons]
  omega

end Text

open Text (byteSize byteSize_append byteSize_pos lineStart)

namespace Position

/-- The place behind a text in terms of offsets: its line counts the line feeds, and its column the
bytes from the start of the line. -/
theorem behind_eq (before : List Char) :
    behind before = ⟨1 + before.count '\n', 1 + byteSize before - lineStart before⟩ := by
  have hsplit : before.rdropWhile (· ≠ '\n') ++ before.rtakeWhile (· ≠ '\n') = before :=
    List.rdropWhile_append_rtakeWhile
  have hsize : byteSize before =
      lineStart before + byteSize (before.rtakeWhile (· ≠ '\n')) := by
    rw [lineStart, ← byteSize_append, hsplit]
  have hcolumn : 1 + byteSize before - lineStart before =
      byteSize (before.rtakeWhile (· ≠ '\n')) + 1 := by omega
  rw [hcolumn, Nat.add_comm 1]
  rfl

theorem precedes_behind_append (before : List Char) {more : List Char} (h : more ≠ []) :
    (behind before).Precedes (behind (before ++ more)) := by
  induction more using List.reverseRecOn with
  | nil => exact absurd rfl h
  | append_singleton more c ih =>
    rw [← List.append_assoc, behind_concat]
    cases more with
    | nil =>
      rw [List.append_nil]
      exact precedes_advance _ c
    | cons d more => exact (ih (List.cons_ne_nil d more)).trans (precedes_advance _ c)

/-- Of two beginnings of a text, the one with the earlier place behind it has fewer bytes. -/
theorem byteSize_lt_of_precedes {text a b : List Char} (ha : a <+: text) (hb : b <+: text)
    (h : (behind a).Precedes (behind b)) : byteSize a < byteSize b := by
  rcases List.prefix_or_prefix_of_prefix ha hb with ⟨more, rfl⟩ | ⟨more, rfl⟩
  · have hmore : more ≠ [] := by
      rintro rfl
      rw [List.append_nil] at h
      exact h.ne rfl
    have hpos := byteSize_pos hmore
    rw [byteSize_append]
    omega
  · exfalso
    by_cases hmore : more = []
    · rw [hmore, List.append_nil] at h
      exact h.ne rfl
    · exact (h.trans (precedes_behind_append b hmore)).ne rfl

end Position

/-! ## The order of pieces -/

namespace Piece

/-- Pieces are found one behind the other. -/
theorem ofChars_precedes (place : Position) (text : List Char) :
    (ofChars place text).Pairwise fun a b => a.position.Precedes b.position := by
  induction text generalizing place with
  | nil => exact .nil
  | cons c text ih =>
    have hlater : ∀ piece ∈ ofChars (place.advance c) text, place.Precedes piece.position := by
      intro piece hpiece
      rcases start_le_of_mem_ofChars hpiece with h | h
      · exact h ▸ place.precedes_advance c
      · exact (place.precedes_advance c).trans h
    rcases ofChars_cons_cases place c text with h | ⟨_, -, h⟩ | ⟨letters, rest, -, hrest, h⟩ <;>
      rw [h]
    · exact ih _
    · exact .cons hlater (ih _)
    · have hword := ih (place.advance c)
      rw [hrest] at hword hlater
      exact .cons (fun piece hpiece => hlater piece (List.mem_cons_of_mem _ hpiece)) hword.of_cons

end Piece

/-! ## What spells a token -/

/-- The words in their canonical spelling, or the parenthesis, with which the text of the token
begins. -/
def Token.spellings : Token → List String
  | .punctuation c => [String.singleton c]
  | .binary op => Vocabulary.binaryWords.filterMap fun (word, o) => if o = op then some word else none
  | .unary op => Vocabulary.unaryWords.filterMap fun (word, o) => if o = op then some word else none
  | .digit value => Vocabulary.digitWords[value]?.toList
  | .keyword k => [k.word]
  | .structural word => [word.word]
  | .label => [Vocabulary.labelWord]
  | .pop => [Vocabulary.popWord]
  | .name text => [text]

theorem Vocabulary.mem_of_lookup {α : Type} {entries : List (String × α)} {word : String}
    {value : α} (h : entries.lookup word = some value) : (word, value) ∈ entries := by
  obtain ⟨front, back, rfl, -⟩ := List.lookup_eq_some_iff.1 h
  simp

namespace Meaning

/-- What a word stands for is spelled by it. -/
theorem mem_spellings {word : String} {t : Token} (h : (ofWord word).token? = some t) :
    Vocabulary.canonical word ∈ t.spellings := by
  rw [ofWord] at h
  generalize Vocabulary.canonical word = word at h ⊢
  unfold ofCanonical at h
  split at h
  · cases h
  split at h
  · cases h
  split at h
  · rename_i hlabel
    cases h
    exact List.mem_singleton.2 hlabel
  split at h
  · rename_i value hdigit
    cases h
    obtain ⟨hlt, hword, -⟩ := List.findIdx?_eq_some_iff_getElem.1 hdigit
    rw [Token.spellings, List.getElem?_eq_getElem hlt, eq_of_beq hword]
    exact List.mem_singleton.2 rfl
  split at h
  · rename_i op hop
    cases (token?_ofOperator _ _).symm.trans h
    exact List.mem_filterMap.2 ⟨(word, op), Vocabulary.mem_of_lookup hop, if_pos rfl⟩
  split at h
  · rename_i op hop
    cases (token?_ofOperator _ _).symm.trans h
    exact List.mem_filterMap.2 ⟨(word, op), Vocabulary.mem_of_lookup hop, if_pos rfl⟩
  split at h
  · rename_i k hk
    cases h
    rw [Keyword.ofWord?] at hk
    have hword := List.find?_some hk
    exact List.mem_singleton.2 (eq_of_beq hword).symm
  split at h
  · rename_i w hw
    cases h
    rw [StructuralWord.ofWord?] at hw
    have hword := List.find?_some hw
    exact List.mem_singleton.2 (eq_of_beq hword).symm
  split at h
  · rename_i hpop
    cases h
    exact List.mem_singleton.2 hpop
  · cases h
    exact List.mem_singleton.2 rfl

theorem keyword_of_ofOperator {word keyword next : String} {t t' : Token} {more : List String}
    (h : ofOperator word t = .phrase t' keyword next more) : keyword = word := by
  unfold ofOperator at h
  split at h
  · cases h
    rfl
  · cases h

/-- A phrase is reported by the word that begins it. -/
theorem keyword_of_phrase {word keyword next : String} {t : Token} {more : List String}
    (h : ofWord word = .phrase t keyword next more) : keyword = word := by
  rcases canonical_eq_or_keyword word with hcanonical | ⟨k, hk⟩
  · rw [ofWord, hcanonical] at h
    unfold ofCanonical at h
    split at h
    · cases h
    split at h
    · cases h
    split at h
    · cases h
    split at h
    · cases h
    split at h
    · exact keyword_of_ofOperator h
    split at h
    · exact keyword_of_ofOperator h
    split at h
    · cases h
    split at h
    · cases h
    split at h
    · cases h
    · cases h
  · rw [hk] at h
    cases h

end Meaning

/-! ## Items and their pieces -/

namespace Token

def Item.position : Item → Position
  | .ok t => t.position
  | .error e => e.position

/-- The piece is what the item says is there: the spelling of the token, the character that is
refused, or the word that begins the broken phrase. -/
def Item.SpelledBy (piece : Piece) : Item → Prop
  | .ok t => Vocabulary.canonical piece.text ∈ t.value.spellings
  | .error ⟨.unexpectedCharacter c, _⟩ => piece = .stray c
  | .error ⟨.brokenPhrase word _ _, _⟩ => piece = .word word.toList

/-- The item is found at the piece. -/
def FoundAt (item : Item) (piece : Located Piece) : Prop :=
  item.position = piece.position ∧ item.SpelledBy piece.value

end Token

/-- Whether the piece means something in code: it makes an item, or begins a phrase that makes one. -/
def Piece.isMeaningful : Piece → Bool
  | .word letters => (Meaning.ofWord (String.ofList letters)).token?.isSome
  | _ => true

/-- What the reader is in the middle of has been opened by these pieces: a phrase by one, of which
there is no item yet. -/
def ReadMode.OpenedBy (opened : List (Located Piece)) : ReadMode → Prop
  | .code | .comment => opened = []
  | .phrase p => ∃ piece, opened = [piece] ∧ piece.position = p.start ∧
      piece.value = .word p.keyword.toList ∧
      Vocabulary.canonical piece.value.text ∈ p.token.spellings

namespace Token

/-- The piece itself if it means something where it is met: an item begins with it. -/
def begun : ReadMode → Located Piece → List (Located Piece)
  | .code, piece => if piece.value.isMeaningful then [piece] else []
  | .comment, _ | .phrase _, _ => []

/-- The pieces with which items begin. -/
def heads : ReadMode → List (Located Piece) → List (Located Piece)
  | _, [] => []
  | mode, piece :: rest => begun mode piece ++ heads (read mode piece).2 rest

/-- Of the pieces that are open or begin something, those in front make the items, and the others
stay open. -/
def Advances (pieces : List (Located Piece)) (result : List Item × ReadMode) : Prop :=
  ∃ closed opened, closed ++ opened = pieces ∧
    List.Forall₂ FoundAt result.1 closed ∧ result.2.OpenedBy opened

theorem Advances.passed {opened : List (Located Piece)} {mode : ReadMode}
    (h : mode.OpenedBy opened) : Advances opened ([], mode) :=
  ⟨[], opened, rfl, .nil, h⟩

theorem Advances.item {item : Item} {piece : Located Piece} (h : FoundAt item piece) :
    Advances [piece] ([item], .code) :=
  ⟨[piece], [], rfl, .cons h .nil, rfl⟩

theorem readCode_advances (piece : Located Piece) :
    Advances (begun .code piece) (readCode piece.value piece.position) := by
  obtain ⟨value, place⟩ := piece
  cases value with
  | opening => exact .item ⟨rfl, (by decide : Vocabulary.canonical "(" ∈ ["("])⟩
  | closing => exact .item ⟨rfl, (by decide : Vocabulary.canonical ")" ∈ [")"])⟩
  | stray c => exact .item ⟨rfl, rfl⟩
  | word letters =>
    have hspelled := fun t => @Meaning.mem_spellings (String.ofList letters) t
    rw [begun, Piece.isMeaningful, readCode]
    cases hmeaning : Meaning.ofWord (String.ofList letters) with
    | nothing => exact .passed rfl
    | comment => exact .passed rfl
    | token t => exact .item ⟨rfl, hspelled t (by rw [hmeaning]; rfl)⟩
    | phrase t keyword next more =>
      have hkeyword := Meaning.keyword_of_phrase hmeaning
      refine .passed ⟨⟨.word letters, place⟩, rfl, rfl, ?_, ?_⟩
      · rw [hkeyword, String.toList_ofList]
      · exact hspelled t (by rw [hmeaning]; rfl)

theorem readPhrase_advances {p : Phrase} {opened : List (Located Piece)}
    (h : (ReadMode.phrase p).OpenedBy opened) (piece : Piece) :
    Advances opened (readPhrase p piece) := by
  have hopened := h
  obtain ⟨first, rfl, hplace, hword, hspelled⟩ := h
  unfold readPhrase
  split
  · exact .passed hopened
  split
  · split
    · exact .item ⟨hplace.symm, hspelled⟩
    · exact @Advances.passed _ (.phrase _) ⟨first, rfl, hplace, hword, hspelled⟩
  · exact .item ⟨hplace.symm, hword⟩

theorem read_advances {mode : ReadMode} {opened : List (Located Piece)} (h : mode.OpenedBy opened)
    (piece : Located Piece) : Advances (opened ++ begun mode piece) (read mode piece) := by
  cases mode with
  | code =>
    subst h
    exact readCode_advances piece
  | comment =>
    subst h
    refine .passed ?_
    unfold readComment
    split
    · split <;> rfl
    · rfl
  | phrase p =>
    rw [begun, List.append_nil]
    exact readPhrase_advances h piece.value

/-- The items are found at what is open and at the pieces with which an item begins, one at each, in
the order of the pieces. -/
theorem stream_found {mode : ReadMode} {opened : List (Located Piece)} (h : mode.OpenedBy opened)
    (pieces : List (Located Piece)) :
    List.Forall₂ FoundAt (stream mode pieces) (opened ++ heads mode pieces) := by
  induction pieces generalizing mode opened with
  | nil =>
    rw [heads, List.append_nil]
    cases mode with
    | code =>
      subst h
      exact .nil
    | comment =>
      subst h
      exact .nil
    | phrase p =>
      obtain ⟨first, rfl, hplace, hword, -⟩ := h
      exact .cons ⟨hplace.symm, hword⟩ .nil
  | cons piece pieces ih =>
    obtain ⟨closed, opened', happend, hfound, hopened⟩ := read_advances h piece
    rw [heads, ← List.append_assoc, ← happend, List.append_assoc]
    exact List.rel_append hfound (ih hopened)

theorem heads_sublist (mode : ReadMode) (pieces : List (Located Piece)) :
    (heads mode pieces).Sublist pieces := by
  induction pieces generalizing mode with
  | nil => exact .slnil
  | cons piece pieces ih =>
    have hbegun : (begun mode piece).Sublist [piece] := by
      cases mode with
      | code =>
        rw [begun]
        split
        · exact .refl _
        · exact List.nil_sublist _
      | _ => exact List.nil_sublist _
    exact hbegun.append (ih _)

/-- Behind this beginning of the source text stands what the item says is there, as a whole word, a
parenthesis or a stray character, and the place of the item is that of its first byte. -/
def Item.Begins (source : String) (item : Item) (before : List Char) : Prop :=
  (∃ piece after, Piece.Stands source.toList before piece after ∧ item.SpelledBy piece) ∧
    item.position = ⟨1 + before.count '\n', 1 + byteSize before - lineStart before⟩

/-- All items of a source text, errors included, begin where they say, each further back in the text
than the one before. -/
theorem streamOf_offsets (source : String) :
    ∃ fronts : List (List Char), List.Forall₂ (Item.Begins source) (streamOf source) fronts ∧
      (fronts.map byteSize).Pairwise (· < ·) := by
  have hfound := @stream_found .code [] rfl (Piece.ofSource source)
  rw [List.nil_append] at hfound
  have hsub := heads_sublist .code (Piece.ofSource source)
  generalize heads .code (Piece.ofSource source) = heads at hfound hsub
  have hstands : ∀ piece ∈ heads, ∃ before after,
      Piece.Stands source.toList before piece.value after ∧ piece.position = .behind before := by
    intro piece hpiece
    obtain ⟨front, back, hpieces⟩ := List.append_of_mem (hsub.subset hpiece)
    obtain ⟨before, after, hstands, -, hplace⟩ := @Piece.ofChars_stands _ [] _ _ _ hpieces
    exact ⟨before, after, hstands, hplace⟩
  choose! before hbefore using hstands
  refine ⟨heads.map before, ?_, ?_⟩
  · rw [List.forall₂_map_right_iff]
    refine ((List.forall₂_and_left ..).2 ⟨hbefore, hfound.flip⟩).flip.imp ?_
    rintro item piece ⟨⟨after, hstands, hplace⟩, hat, hspelled⟩
    exact ⟨⟨piece.value, after, hstands, hspelled⟩, by rw [hat, hplace, Position.behind_eq]⟩
  · have hfront : ∀ piece ∈ heads, before piece <+: source.toList := by
      intro piece hpiece
      obtain ⟨after, hstands, -⟩ := hbefore piece hpiece
      exact ⟨_, hstands.text_eq.symm⟩
    have hplace : ∀ piece ∈ heads, piece.position = .behind (before piece) := fun piece hpiece =>
      (hbefore piece hpiece).choose_spec.2
    rw [List.pairwise_map, List.pairwise_map]
    refine ((Piece.ofChars_precedes .first source.toList).sublist hsub).imp_of_mem ?_
    intro a b ha hb hprecedes
    rw [hplace a ha, hplace b hb] at hprecedes
    exact Position.byteSize_lt_of_precedes (hfront a ha) (hfront b hb) hprecedes

/-- Reading goes on behind a stray character of two bytes and behind the parenthesis that breaks a
phrase. -/
theorem streamOf_offsets_behindErrors :
    ∃ fronts, List.Forall₂ (Item.Begins "a\né drag (b")
        [.ok ⟨.name "a", ⟨1, 1⟩⟩, .error ⟨.unexpectedCharacter 'é', ⟨2, 1⟩⟩,
          .error ⟨.brokenPhrase "drag" "and" (some "("), ⟨2, 4⟩⟩, .ok ⟨.name "b", ⟨2, 10⟩⟩] fronts ∧
      fronts.map byteSize = [0, 2, 5, 11] := by
  obtain ⟨fronts, hbegins, -⟩ := streamOf_offsets "a\né drag (b"
  refine ⟨fronts, hbegins, ?_⟩
  -- of the beginnings of the text each stands in front of another place
  have hoffset : ∀ front ∈ "a\né drag (b".toList.inits,
      (Position.mk 1 1 = .behind front → byteSize front = 0) ∧
        (Position.mk 2 1 = .behind front → byteSize front = 2) ∧
        (Position.mk 2 4 = .behind front → byteSize front = 5) ∧
        (Position.mk 2 10 = .behind front → byteSize front = 11) := by decide
  have hfront : ∀ {item front}, Item.Begins "a\né drag (b" item front →
      front ∈ "a\né drag (b".toList.inits ∧ item.position = .behind front := by
    rintro item front ⟨⟨piece, after, hstands, -⟩, hplace⟩
    exact ⟨(List.mem_inits _ _).2 ⟨_, hstands.text_eq.symm⟩, by rw [hplace, Position.behind_eq]⟩
  obtain _ | ⟨h₁, _ | ⟨h₂, _ | ⟨h₃, _ | ⟨h₄, _ | _⟩⟩⟩⟩ := hbegins
  obtain ⟨hinit₁, hplace₁⟩ := hfront h₁
  obtain ⟨hinit₂, hplace₂⟩ := hfront h₂
  obtain ⟨hinit₃, hplace₃⟩ := hfront h₃
  obtain ⟨hinit₄, hplace₄⟩ := hfront h₄
  simp only [List.map_cons, List.map_nil, (hoffset _ hinit₁).1 hplace₁,
    (hoffset _ hinit₂).2.1 hplace₂, (hoffset _ hinit₃).2.2.1 hplace₃,
    (hoffset _ hinit₄).2.2.2 hplace₄]

/-- A piece that means something is found by an item of its own, unless it stands in a comment or
within a phrase. -/
theorem exists_item_of_isMeaningful {source : String} {front back : List (Located Piece)}
    {piece : Located Piece} (hpieces : Piece.ofSource source = front ++ piece :: back)
    (hcode : (readAll .code front).2 = .code) (h : piece.value.isMeaningful = true) :
    ∃ item ∈ streamOf source, FoundAt item piece := by
  have hfound := @stream_found .code [] rfl (piece :: back)
  rw [heads, begun, if_pos h] at hfound
  obtain ⟨item, items, hitem, -, hstream⟩ := List.forall₂_cons_right_iff.1 hfound
  refine ⟨item, ?_, hitem⟩
  rw [streamOf, hpieces, stream_append, hcode, hstream]
  exact List.mem_append_right _ List.mem_cons_self

end Token
end VerbScript
