import VerbScript.Proofs.Syntax.Spelling

/-!
# VerbScript.Proofs.Spacing.Text

Separators and filler words can be put into a text between any two words.

* `Piece.split` splits a text without counting lines and columns. A letter belongs to the word behind
  it exactly if that word's first letter comes next, so the places say nothing that the text does not
  say (`Piece.map_value_ofChars`), and a text can be split at any point that is not inside a word
  (`Piece.split_append`).
* `Piece.Gap` are the texts of separators and filler words. They leave filler words only.
* Filler is passed over in code, in comments and inside a phrase alike (`Token.read_filler`).

`Token.ofSource_gap` puts this together: a gap changes at most the places of what is read.
-/

namespace VerbScript

/-- The thing by itself, wherever it was found. -/
def Located.unplaced {α : Type} (x : Located α) : Located α := ⟨x.value, {}⟩

theorem Located.map_unplaced {α : Type} (l : List (Located α)) :
    l.map unplaced = (l.map value).map fun x => ⟨x, {}⟩ := by
  rw [List.map_map]
  rfl

/-- What is read by itself, or why nothing is. `erase` takes the places out of a result. -/
def unplacedReading {ε α : Type} (erase : α → α) : Except (Located ε) α → Except (Located ε) α
  | .ok result => .ok (erase result)
  | .error e => .error e.unplaced

/-! ## Pieces without places -/

namespace Piece

/-- Puts a letter in front of pieces: it joins a word if `joins` says so. -/
def join (c : Char) (joins : Bool) (pieces : List Piece) : List Piece :=
  match joins, pieces with
  | true, .word letters :: rest => .word (c :: letters) :: rest
  | _, _ => .word [c] :: pieces

/-- Whether a text begins with a letter. -/
def beginsWord : List Char → Bool
  | [] => false
  | c :: _ => isLetter c

/-- The pieces of a text. -/
def split : List Char → List Piece
  | [] => []
  | c :: text =>
    if isLetter c then join c (beginsWord text) (split text)
    else if isSeparator c then split text
    else if c = '(' then .opening :: split text
    else if c = ')' then .closing :: split text
    else .stray c :: split text

/-- The first piece starts right at the beginning of a text unless a separator stands there, so it is
a word that starts there only if the text begins with a letter. -/
theorem beginsWord_of_ofChars {place : Position} {text letters : List Char}
    {rest : List (Located Piece)} (h : ofChars place text = ⟨.word letters, place⟩ :: rest) :
    beginsWord text = true := by
  cases text with
  | nil => cases h
  | cons c text =>
    simp only [ofChars] at h
    split at h
    · rename_i hletter
      exact hletter
    · split at h
      · rcases start_le_of_mem_ofChars (h ▸ List.mem_cons_self) with hstart | hstart
        · exact absurd hstart.symm (place.precedes_advance c).ne
        · exact absurd rfl ((place.precedes_advance c).trans hstart).ne
      · split at h
        · cases h
        · split at h
          · cases h
          · cases h

/-- A text that begins with a letter has a word there. -/
theorem ofChars_beginsWord {text : List Char} (h : beginsWord text = true) (place : Position) :
    ∃ letters rest, ofChars place text = ⟨.word letters, place⟩ :: rest := by
  cases text with
  | nil => cases h
  | cons c text =>
    have hletter : isLetter c = true := h
    simp only [ofChars, hletter, ↓reduceIte, consLetter]
    split
    · split
      · exact ⟨_, _, rfl⟩
      · exact ⟨_, _, rfl⟩
    · exact ⟨_, _, rfl⟩

/-- A letter with no letter behind it is a word by itself: a word that started right behind it would
begin with a letter. -/
theorem consLetter_alone {c : Char} {text : List Char} (h : beginsWord text = false)
    (place : Position) :
    consLetter c place (ofChars (place.advance c) text) =
      ⟨.word [c], place⟩ :: ofChars (place.advance c) text := by
  unfold consLetter
  split
  · rename_i letters start rest heq
    rw [if_neg]
    rintro rfl
    rw [beginsWord_of_ofChars heq] at h
    cases h
  · rfl

theorem map_value_consLetter (c : Char) (place : Position) (text : List Char) :
    (consLetter c place (ofChars (place.advance c) text)).map Located.value =
      join c (beginsWord text) ((ofChars (place.advance c) text).map Located.value) := by
  cases hbegins : beginsWord text with
  | true =>
    obtain ⟨letters, rest, hrest⟩ := ofChars_beginsWord hbegins (place.advance c)
    simp [hrest, consLetter, join]
  | false =>
    rw [consLetter_alone hbegins]
    rfl

/-- The places say nothing that the text does not say. -/
theorem map_value_ofChars (place : Position) (text : List Char) :
    (ofChars place text).map Located.value = split text := by
  induction text generalizing place with
  | nil => rfl
  | cons c text ih =>
    simp only [ofChars, split]
    split
    · rw [map_value_consLetter, ih]
    · split
      · exact ih _
      · split
        · rw [List.map_cons, ih]
        · split
          · rw [List.map_cons, ih]
          · rw [List.map_cons, ih]

/-! ## Splitting at a point -/

/-- The point between two texts is not inside a word. -/
def Apart (front back : List Char) : Prop :=
  ∀ c ∈ front.getLast?, isLetter c = true → beginsWord back = false

theorem split_beginsWord {text : List Char} (h : beginsWord text = true) :
    ∃ letters rest, split text = .word letters :: rest := by
  obtain ⟨letters, rest, heq⟩ := ofChars_beginsWord h .first
  rw [← map_value_ofChars .first, heq]
  exact ⟨letters, _, rfl⟩

/-- A letter joins the same word, whatever comes behind. -/
theorem join_append (c : Char) (text : List Char) (pieces : List Piece) :
    join c (beginsWord text) (split text ++ pieces) =
      join c (beginsWord text) (split text) ++ pieces := by
  cases hbegins : beginsWord text with
  | false => rfl
  | true =>
    obtain ⟨letters, rest, heq⟩ := split_beginsWord hbegins
    rw [heq]
    rfl

/-- A character that is no letter leaves its own pieces, whatever comes behind. -/
theorem split_cons_of_not_letter {c : Char} (h : isLetter c = false) :
    ∃ own, ∀ text, split (c :: text) = own ++ split text := by
  simp only [split, h, Bool.false_eq_true, ↓reduceIte]
  split
  · exact ⟨[], fun _ => rfl⟩
  · split
    · exact ⟨[.opening], fun _ => rfl⟩
    · split
      · exact ⟨[.closing], fun _ => rfl⟩
      · exact ⟨[.stray c], fun _ => rfl⟩

theorem split_append {front back : List Char} (h : Apart front back) :
    split (front ++ back) = split front ++ split back := by
  induction front with
  | nil => rfl
  | cons c front ih =>
    have hrest : split (front ++ back) = split front ++ split back := by
      refine ih fun d hd => h d ?_
      cases front with
      | nil => cases hd
      | cons => exact hd
    rw [List.cons_append]
    cases hletter : isLetter c with
    | false =>
      obtain ⟨own, hown⟩ := split_cons_of_not_letter hletter
      rw [hown, hown, hrest, List.append_assoc]
    | true =>
      simp only [split, hletter, ↓reduceIte, hrest]
      cases front with
      | nil =>
        -- The last letter of the front joins nothing, since no word goes on behind the point.
        rw [List.nil_append, h c rfl hletter]
        rfl
      | cons d front => exact join_append c (d :: front) (split back)

/-! ## Gaps -/

/-- Texts of separators and filler words that begin and end with a separator. -/
inductive Gap : List Char → Prop where
  | separator {c : Char} : isSeparator c = true → Gap [c]
  | more {c : Char} {text : List Char} : isSeparator c = true → Gap text → Gap (c :: text)
  | filler {c : Char} {word : String} {text : List Char} : isSeparator c = true →
      Vocabulary.isFiller word = true → Gap text → Gap (c :: (word.toList ++ text))

theorem isLetter_separator {c : Char} (h : isSeparator c = true) : isLetter c = false := by
  simp only [isSeparator, List.contains_iff_mem, List.mem_cons, List.not_mem_nil, or_false] at h
  rcases h with rfl | rfl | rfl | rfl | rfl | rfl | rfl <;> decide

theorem Gap.beginsWord {text : List Char} (h : Gap text) : beginsWord text = false := by
  cases h with
  | separator hc => exact isLetter_separator hc
  | more hc => exact isLetter_separator hc
  | filler hc => exact isLetter_separator hc

theorem Gap.getLast? {text : List Char} (h : Gap text) :
    ∃ c, text.getLast? = some c ∧ isLetter c = false := by
  induction h with
  | separator hc => exact ⟨_, rfl, isLetter_separator hc⟩
  | more hc _ ih =>
    obtain ⟨c, hlast, hletter⟩ := ih
    exact ⟨c, by simp [List.getLast?_cons, hlast], hletter⟩
  | filler hc _ _ ih =>
    obtain ⟨c, hlast, hletter⟩ := ih
    exact ⟨c, by simp [List.getLast?_cons, List.getLast?_append, hlast], hletter⟩

theorem split_separator {c : Char} (h : isSeparator c = true) (text : List Char) :
    split (c :: text) = split text := by
  rw [split, if_neg (by simp [isLetter_separator h]), if_pos h]

theorem split_word {letters : List Char} (h : IsWord letters) : split letters = [.word letters] := by
  obtain ⟨hne, hletters⟩ := h
  induction letters with
  | nil => exact absurd rfl hne
  | cons c letters ih =>
    have hc : isLetter c = true := hletters c List.mem_cons_self
    rw [split, if_pos hc]
    cases letters with
    | nil => rfl
    | cons d letters =>
      have hbegins : Piece.beginsWord (d :: letters) = true := hletters d (by simp)
      rw [ih (List.cons_ne_nil _ _) fun e he => hletters e (List.mem_cons_of_mem _ he), hbegins]
      rfl

/-- Whether the piece is a filler word. -/
def isFiller : Piece → Bool
  | .word letters => Vocabulary.isFiller (String.ofList letters)
  | _ => false

/-- The pieces that are not filler. -/
def meaningful (pieces : List Piece) : List Piece := pieces.filter fun piece => !piece.isFiller

end Piece

theorem Vocabulary.isFiller_cases {word : String} (h : isFiller word = true) :
    word = "it" ∨ word = "quick" ∨ word = "mail" := by
  simpa [isFiller] using h

namespace Piece

theorem isWord_filler {word : String} (h : Vocabulary.isFiller word = true) :
    IsWord word.toList := by
  rcases Vocabulary.isFiller_cases h with rfl | rfl | rfl <;> decide

/-- A gap leaves nothing but filler. -/
theorem Gap.meaningful_split {text : List Char} (h : Gap text) : meaningful (split text) = [] := by
  induction h with
  | separator hc => rw [split_separator hc]; rfl
  | more hc _ ih => rw [split_separator hc, ih]
  | @filler c word text hc hword htext ih =>
    have hapart : Apart word.toList text := fun _ _ _ => htext.beginsWord
    rw [split_separator hc, split_append hapart, split_word (isWord_filler hword)]
    rw [meaningful, List.filter_append, ← meaningful, ← meaningful, ih]
    simp [meaningful, isFiller, hword]

/-- Besides filler, a text has the same pieces with a gap in it. -/
theorem meaningful_split_gap {front gap back : List Char} (hgap : Gap gap)
    (hapart : Apart front back) :
    meaningful (split (front ++ gap ++ back)) = meaningful (split (front ++ back)) := by
  have hfront : Apart front gap := fun _ _ _ => hgap.beginsWord
  have hback : Apart (front ++ gap) back := by
    intro c hc hletter
    obtain ⟨d, hd, hnone⟩ := hgap.getLast?
    have heq : d = c := by simpa [List.getLast?_append, hd] using hc
    rw [heq, hletter] at hnone
    cases hnone
  rw [split_append hback, split_append hfront, split_append hapart]
  simp only [meaningful, List.filter_append]
  rw [← meaningful, ← meaningful, ← meaningful, hgap.meaningful_split, List.append_nil]

end Piece

/-! ## Tokens at other places -/

/-- The thing found at the place that `f` makes of its own. -/
def Located.moved {α : Type} (f : Position → Position) (x : Located α) : Located α :=
  ⟨x.value, f x.position⟩

/-- What the reader is in the middle of, begun at another place. -/
def ReadMode.moved (f : Position → Position) : ReadMode → ReadMode
  | .phrase p => .phrase { p with start := f p.start }
  | mode => mode

/-- What the reader is in the middle of, wherever it began. -/
def ReadMode.unplaced : ReadMode → ReadMode
  | .phrase p => .phrase { p with start := {} }
  | mode => mode

theorem ReadMode.unplaced_eq_moved (mode : ReadMode) : mode.unplaced = mode.moved fun _ => {} := by
  cases mode <;> rfl

namespace Token

def Item.moved (f : Position → Position) : Item → Item
  | .ok t => .ok (t.moved f)
  | .error e => .error (e.moved f)

def Item.unplaced (item : Item) : Item := unplacedReading Located.unplaced item

theorem Item.unplaced_eq_moved : Item.unplaced = Item.moved fun _ => {} := by
  funext item
  cases item <;> rfl

/-- Tokens, or the error, at other places. -/
def movedReading (f : Position → Position) :
    Except (Located ScanError) (List (Located Token)) →
      Except (Located ScanError) (List (Located Token))
  | .ok ts => .ok (ts.map (Located.moved f))
  | .error e => .error (e.moved f)

variable (f : Position → Position)

theorem readPhrase_moved (p : Phrase) (piece : Piece) :
    readPhrase { p with start := f p.start } piece =
      ((readPhrase p piece).1.map (Item.moved f), (readPhrase p piece).2.moved f) := by
  unfold readPhrase
  by_cases hfiller : Vocabulary.isFiller piece.text = true
  · rw [if_pos hfiller, if_pos hfiller]
    rfl
  · rw [if_neg hfiller, if_neg hfiller]
    by_cases hnext : piece.text = p.next
    · rw [if_pos hnext, if_pos hnext]
      cases p.more <;> rfl
    · rw [if_neg hnext, if_neg hnext]
      rfl

/-- How a piece is read does not depend on where it is. -/
theorem read_moved (mode : ReadMode) (piece : Located Piece) :
    read (mode.moved f) (piece.moved f) =
      ((read mode piece).1.map (Item.moved f), (read mode piece).2.moved f) := by
  obtain ⟨piece, place⟩ := piece
  cases mode with
  | code =>
    cases piece with
    | word letters =>
      simp only [read, ReadMode.moved, Located.moved, readCode]
      cases Meaning.ofWord (String.ofList letters) <;> rfl
    | opening => rfl
    | closing => rfl
    | stray c => rfl
  | comment =>
    cases piece with
    | word letters =>
      simp only [read, ReadMode.moved, Located.moved, readComment]
      split <;> rfl
    | opening => rfl
    | closing => rfl
    | stray c => rfl
  | phrase p =>
    exact readPhrase_moved f p piece

theorem stream_moved (mode : ReadMode) (pieces : List (Located Piece)) :
    stream (mode.moved f) (pieces.map (Located.moved f)) =
      (stream mode pieces).map (Item.moved f) := by
  induction pieces generalizing mode with
  | nil => cases mode <;> rfl
  | cons piece pieces ih =>
    simp only [List.map_cons, stream, read_moved, List.map_append, ih]

theorem collect_moved (items : List Item) :
    collect (items.map (Item.moved f)) = movedReading f (collect items) := by
  induction items with
  | nil => rfl
  | cons item items ih =>
    cases item with
    | error e => rfl
    | ok t =>
      simp only [List.map_cons, Item.moved, collect, ih]
      cases collect items <;> rfl

theorem stream_unplaced (mode : ReadMode) (pieces : List (Located Piece)) :
    stream mode.unplaced (pieces.map Located.unplaced) =
      (stream mode pieces).map Item.unplaced := by
  rw [mode.unplaced_eq_moved, Item.unplaced_eq_moved]
  exact stream_moved _ mode pieces

theorem collect_unplaced (items : List Item) :
    collect (items.map Item.unplaced) =
      unplacedReading (List.map Located.unplaced) (collect items) := by
  rw [Item.unplaced_eq_moved, collect_moved]
  cases collect items <;> rfl

/-! ## Filler -/

/-- A filler word is passed over wherever it stands. -/
theorem read_filler {piece : Located Piece} (h : piece.value.isFiller = true) (mode : ReadMode) :
    read mode piece = ([], mode) := by
  obtain ⟨piece, place⟩ := piece
  cases piece with
  | word letters =>
    have hword : Vocabulary.isFiller (String.ofList letters) = true := h
    cases mode with
    | code =>
      have hmeaning : Meaning.ofWord (String.ofList letters) = .nothing := by
        rcases Vocabulary.isFiller_cases hword with heq | heq | heq <;> rw [heq] <;> decide
      simp only [read, readCode, hmeaning]
    | comment =>
      have hend : String.ofList letters ≠ Vocabulary.commentEnd := by
        rcases Vocabulary.isFiller_cases hword with heq | heq | heq <;> rw [heq] <;> decide
      simp only [read, readComment, if_neg hend]
    | phrase p =>
      simp only [read, readPhrase, Piece.text, hword, ↓reduceIte]
  | opening => cases h
  | closing => cases h
  | stray c => cases h

theorem stream_filter_filler (mode : ReadMode) (pieces : List (Located Piece)) :
    stream mode (pieces.filter fun piece => !piece.value.isFiller) = stream mode pieces := by
  induction pieces generalizing mode with
  | nil => rfl
  | cons piece pieces ih =>
    cases hfiller : piece.value.isFiller with
    | true =>
      rw [List.filter_cons_of_neg (by simp [hfiller]), ih, stream, read_filler hfiller]
      rfl
    | false =>
      rw [List.filter_cons_of_pos (by simp [hfiller])]
      simp only [stream, ih]

/-- What is read from a text depends on its meaningful pieces only, but for the places. -/
theorem unplaced_ofSource (source : String) :
    unplacedReading (List.map Located.unplaced) (ofSource source) =
      collect (stream .code
        ((Piece.meaningful (Piece.split source.toList)).map fun piece => ⟨piece, {}⟩)) := by
  have hpieces : (Piece.ofSource source).map Located.unplaced =
      (Piece.split source.toList).map fun piece => ⟨piece, {}⟩ := by
    rw [Located.map_unplaced, Piece.ofSource, Piece.map_value_ofChars]
  calc unplacedReading (List.map Located.unplaced) (ofSource source)
    _ = collect ((streamOf source).map Item.unplaced) := (collect_unplaced _).symm
    _ = collect (stream .code ((Piece.ofSource source).map Located.unplaced)) := by
        rw [streamOf, ← stream_unplaced]
        rfl
    _ = collect (stream .code ((Piece.split source.toList).map fun piece => ⟨piece, {}⟩)) := by
        rw [hpieces]
    _ = _ := by
        rw [← stream_filter_filler, List.filter_map]
        rfl

theorem ofSource_gap {front gap back : String} (hgap : Piece.Gap gap.toList)
    (hapart : Piece.Apart front.toList back.toList) :
    unplacedReading (List.map Located.unplaced) (ofSource (front ++ gap ++ back)) =
      unplacedReading (List.map Located.unplaced) (ofSource (front ++ back)) := by
  rw [unplaced_ofSource, unplaced_ofSource]
  simp only [String.toList_append]
  rw [Piece.meaningful_split_gap hgap hapart]

end Token
end VerbScript
