import VerbScript.Proofs.Places.Text

/-!
# VerbScript.Proofs.Places.Lines

A text is read line by line.

A text is read piece by piece, and its pieces further down are the same pieces at lower places
(`Piece.ofChars_down`). So what stands behind a line feed is read as it is read alone, only further
down, except where a comment is open at the line feed: then it is read from the first word on that
closes the comment.

* `Piece.ofChars_append`: the pieces of two texts one behind the other.
* `Token.readAll`: what the reader is in the middle of at the end of some pieces. At the end of a text
  that has tokens it is in code or in a comment, as `Piece.commentOpen` says.
* `Piece.Closes`: where a text closes a comment that was open in front of it.
* `Token.ofSource_lines`: what is read of two texts with a line feed between them.
-/

namespace VerbScript

namespace Position

/-- The same column `k` lines further down. -/
def down (k : Nat) (place : Position) : Position := ⟨place.line + k, place.column⟩

theorem advance_down (k : Nat) (place : Position) (c : Char) :
    (place.down k).advance c = (place.advance c).down k := by
  unfold advance down
  split
  · rw [Nat.add_right_comm]
  · rfl

theorem down_inj {k : Nat} {place place' : Position} :
    place.down k = place'.down k ↔ place = place' := by
  obtain ⟨line, column⟩ := place
  obtain ⟨line', column'⟩ := place'
  simp [down]

/-- Behind a line feed a line begins, as many lines down as have ended. -/
theorem behind_newline (before : List Char) :
    behind (before ++ ['\n']) = first.down (before.count '\n' + 1) := by
  rw [behind_concat]
  simp only [behind, advance, down, first, ↓reduceIte]
  rw [Nat.add_comm]

end Position

namespace Piece

/-! ## Pieces further down -/

theorem consLetter_down (k : Nat) (c : Char) (place : Position) (pieces : List (Located Piece)) :
    consLetter c (place.down k) (pieces.map (Located.moved (.down k))) =
      (consLetter c place pieces).map (Located.moved (.down k)) := by
  cases pieces with
  | nil => rfl
  | cons piece pieces =>
    obtain ⟨piece, start⟩ := piece
    cases piece with
    | word letters =>
      simp only [List.map_cons, Located.moved, consLetter, Position.advance_down, Position.down_inj]
      split <;> rfl
    | _ => rfl

theorem ofChars_down (k : Nat) (place : Position) (text : List Char) :
    ofChars (place.down k) text = (ofChars place text).map (Located.moved (.down k)) := by
  induction text generalizing place with
  | nil => rfl
  | cons c text ih =>
    simp only [ofChars, Position.advance_down, ih]
    split
    · exact consLetter_down k c place _
    · split
      · rfl
      · split
        · rfl
        · split <;> rfl

/-! ## Pieces of two texts -/

/-- The pieces of a text, and behind a point that is not inside a word those of another one. -/
theorem ofChars_append {front back : List Char} (h : Apart front back) (seen : List Char) :
    ofChars (.behind seen) (front ++ back) =
      ofChars (.behind seen) front ++ ofChars (.behind (seen ++ front)) back := by
  induction front generalizing seen with
  | nil => simp [ofChars]
  | cons c front ih =>
    have hapart : Apart front back := by
      intro d hd
      refine h d ?_
      rw [List.getLast?_cons, Option.mem_def.1 hd]
      rfl
    have hrest := ih hapart (seen ++ [c])
    rw [List.append_assoc, List.singleton_append, Position.behind_concat] at hrest
    simp only [List.cons_append, ofChars]
    split
    · rename_i hletter
      cases hbegins : beginsWord front with
      | true =>
        -- the letter joins the first word of the front
        obtain ⟨letters, pieces, hword⟩ :=
          ofChars_beginsWord hbegins ((Position.behind seen).advance c)
        rw [hrest, hword]
        simp only [List.cons_append, consLetter, ↓reduceIte]
      | false =>
        have hnone : beginsWord (front ++ back) = false := by
          cases front with
          | nil => exact h c rfl hletter
          | cons d front => exact hbegins
        rw [consLetter_alone hbegins, consLetter_alone hnone, hrest, List.cons_append]
    · split
      · exact hrest
      · split
        · rw [hrest, List.cons_append]
        · split
          · rw [hrest, List.cons_append]
          · rw [hrest, List.cons_append]

theorem apart_newline (front back : List Char) : Apart (front ++ ['\n']) back := by
  intro c hc hletter
  rw [List.getLast?_concat] at hc
  cases hc
  exact absurd hletter (by decide)

/-- The pieces of a text and of another one in the lines below it. -/
theorem ofChars_newline (front back : List Char) :
    ofChars .first (front ++ '\n' :: back) =
      ofChars .first front ++
        (ofChars .first back).map (Located.moved (.down (front.count '\n' + 1))) := by
  have hfeed : Apart front ['\n'] := fun _ _ _ => by decide
  have hfront := ofChars_append hfeed []
  have hback := ofChars_append (apart_newline front back) []
  rw [List.nil_append, Position.behind_newline, ofChars_down] at hback
  have hnone (place : Position) : ofChars place ['\n'] = [] := rfl
  rw [hnone, List.append_nil] at hfront
  rw [List.append_cons]
  exact hback.trans (congrArg (· ++ _) hfront)

/-! ## Where a comment is closed -/

theorem Proper.text_ne_nil {piece : Piece} (h : piece.Proper) : piece.text.toList ≠ [] := by
  cases piece with
  | word letters => simpa [text] using h.1
  | opening => decide
  | closing => decide
  | stray c => simp [text]

/-- A piece of a text is one of a longer text, unless what comes behind goes on with it. -/
theorem Stands.append {text before after back : List Char} {piece : Piece}
    (h : Stands text before piece after) (hback : Apart text back) :
    Stands (text ++ back) before piece (after ++ back) where
  text_eq := by rw [h.text_eq, List.append_assoc, List.append_assoc]
  proper := h.proper
  start := by
    intro c hc hletter
    have hstart := h.start c hc hletter
    rwa [beginsWord_append h.proper.text_ne_nil] at hstart ⊢
  finish := by
    intro c hc hletter
    cases hafter : after with
    | nil =>
      refine hback c ?_ hletter
      rw [h.text_eq, hafter, List.append_nil, List.getLast?_append, Option.mem_def.1 hc]
      rfl
    | cons d after =>
      subst hafter
      exact h.finish c hc hletter

/-- The word that closes a comment. -/
def closer : Piece := .word Vocabulary.commentEnd.toList

/-- The first whole word of a text that closes a comment stands between the two others. -/
structure Closes (text before after : List Char) : Prop where
  stands : Stands text before closer after
  first : ∀ before' after', Stands text before' closer after' → before.length ≤ before'.length

theorem ofChars_closer (place : Position) :
    ofChars place closer.text.toList = [⟨closer, place⟩] := by
  have hbegins : beginsWord closer.text.toList = true := by decide
  obtain ⟨letters, rest, hword⟩ := ofChars_beginsWord hbegins place
  have hvalues := map_value_ofChars place closer.text.toList
  rw [hword, (by decide : split closer.text.toList = [closer]), List.map_cons] at hvalues
  obtain ⟨hletters, hrest⟩ := List.cons.inj hvalues
  rw [hword, List.map_eq_nil_iff.1 hrest, ← hletters]

/-- In front of the first word that closes a comment there is none. -/
theorem Closes.not_mem {text before after : List Char} (h : Closes text before after) :
    ∀ piece ∈ ofChars .first before, piece.value ≠ closer := by
  intro piece hpiece hvalue
  obtain ⟨front, back, hpieces⟩ := List.append_of_mem hpiece
  obtain ⟨before', after', hstands, -, -⟩ := @ofChars_stands _ [] _ _ _ hpieces
  rw [hvalue] at hstands
  have hearlier := h.first _ _ (h.stands.text_eq ▸ hstands.append h.stands.start)
  have hlength := congrArg List.length hstands.text_eq
  have hword := List.length_pos_of_ne_nil hstands.proper.text_ne_nil
  simp only [List.length_append] at hlength
  omega

theorem Closes.ofChars {text before after : List Char} (h : Closes text before after) :
    ofChars .first text = Piece.ofChars .first before ++
      ⟨closer, .behind before⟩ :: Piece.ofChars (.behind (before ++ closer.text.toList)) after := by
  have hfront := ofChars_append h.stands.start []
  have hback := ofChars_append h.stands.finish before
  rw [← h.stands.text_eq, List.nil_append, hback, ofChars_closer] at hfront
  exact hfront

theorem ne_closer_of_not_stands {text : List Char}
    (h : ∀ before after, ¬ Stands text before closer after) :
    ∀ piece ∈ ofChars .first text, piece.value ≠ closer := by
  intro piece hpiece hvalue
  obtain ⟨front, back, hpieces⟩ := List.append_of_mem hpiece
  obtain ⟨before, after, hstands, -, -⟩ := @ofChars_stands _ [] _ _ _ hpieces
  exact h before after (hvalue ▸ hstands)

end Piece

open Piece (commentOpen Closes closer)

namespace Token

/-! ## Reading up to a point -/

/-- The items that pieces make, and what the reader is in the middle of behind them. -/
def readAll (mode : ReadMode) : List (Located Piece) → List Item × ReadMode
  | [] => ([], mode)
  | piece :: rest =>
    let (items, next) := read mode piece
    let (more, last) := readAll next rest
    (items ++ more, last)

theorem stream_append (mode : ReadMode) (front back : List (Located Piece)) :
    stream mode (front ++ back) = (readAll mode front).1 ++ stream (readAll mode front).2 back := by
  induction front generalizing mode with
  | nil => rfl
  | cons piece front ih => simp only [List.cons_append, stream, readAll, ih, List.append_assoc]

theorem stream_eq_readAll (mode : ReadMode) (pieces : List (Located Piece)) :
    stream mode pieces = (readAll mode pieces).1 ++ finish (readAll mode pieces).2 := by
  have happend := stream_append mode pieces []
  rwa [List.append_nil] at happend

/-- Where no error has been met, the reader follows the comments. -/
theorem readAll_follows {pieces seen rest : List (Located Piece)} (hpieces : pieces = seen ++ rest)
    {mode : ReadMode} (h : mode.Follows pieces (seen.map Located.value))
    (hnone : ∀ e, .error e ∉ (readAll mode rest).1) :
    (readAll mode rest).2.Follows pieces (pieces.map Located.value) := by
  induction rest generalizing seen mode with
  | nil =>
    rw [List.append_nil] at hpieces
    rwa [hpieces] at h ⊢
  | cons piece rest ih =>
    simp only [readAll, List.mem_append, not_or] at hnone
    have hnext := (read_placed hpieces h).2 fun e => (hnone e).1
    exact ih (by rw [hpieces, List.append_assoc, List.singleton_append]) hnext fun e => (hnone e).2

/-- Items that make tokens are these tokens. -/
theorem eq_map_of_collect {items : List Item} {ts : List (Located Token)}
    (h : collect items = .ok ts) : items = ts.map .ok := by
  induction items generalizing ts with
  | nil =>
    cases h
    rfl
  | cons item items ih =>
    cases item with
    | error e => cases h
    | ok t =>
      simp only [collect] at h
      cases hitems : collect items with
      | error e =>
        rw [hitems] at h
        cases h
      | ok us =>
        rw [hitems] at h
        cases h
        rw [ih hitems, List.map_cons]

theorem collect_append (ts : List (Located Token)) (rest : List Item) :
    collect (ts.map .ok ++ rest) = (collect rest).map (ts ++ ·) := by
  induction ts with
  | nil => cases hrest : collect rest <;> simp [hrest, Except.map]
  | cons t ts ih =>
    simp only [List.map_cons, List.cons_append, collect, ih]
    cases collect rest <;> rfl

/-- Behind pieces that have tokens, reading goes on in a comment if one is open, and in code if not. -/
theorem collect_stream_append {pieces : List (Located Piece)} {ts : List (Located Token)}
    (h : collect (stream .code pieces) = .ok ts) (rest : List (Located Piece)) :
    collect (stream .code (pieces ++ rest)) =
      (collect (stream (if commentOpen (pieces.map Located.value) then .comment else .code) rest)).map
        (ts ++ ·) := by
  have hitems := eq_map_of_collect h
  rw [stream_eq_readAll] at hitems
  have hnone : ∀ e, .error e ∉ (readAll .code pieces).1 ++ finish (readAll .code pieces).2 := by
    intro e he
    rw [hitems] at he
    obtain ⟨t, -, ht⟩ := List.mem_map.1 he
    cases ht
  have hfollows := @readAll_follows pieces [] pieces rfl .code rfl fun e he =>
    hnone e (List.mem_append_left _ he)
  rw [stream_append]
  cases hmode : (readAll .code pieces).2 with
  | code =>
    rw [hmode] at hitems hfollows
    simp only [finish, List.append_nil] at hitems
    rw [hitems, collect_append, (show commentOpen _ = false from hfollows)]
    rfl
  | comment =>
    rw [hmode] at hitems hfollows
    simp only [finish, List.append_nil] at hitems
    rw [hitems, collect_append, (show commentOpen _ = true from hfollows)]
    rfl
  | phrase p =>
    -- the phrase would be broken at the end of the pieces
    rw [hmode] at hnone
    exact absurd (List.mem_append_right _ List.mem_cons_self) (hnone _)

/-! ## Comments -/

theorem read_comment_of_ne {piece : Located Piece} (h : piece.value ≠ closer) :
    read .comment piece = ([], .comment) := by
  obtain ⟨value, place⟩ := piece
  cases value with
  | word letters =>
    have hne : String.ofList letters ≠ Vocabulary.commentEnd := by
      intro heq
      refine h ?_
      rw [closer, ← heq, String.toList_ofList]
    simp only [read, readComment, if_neg hne]
  | _ => rfl

/-- A comment that nothing closes makes no items. -/
theorem stream_comment {pieces : List (Located Piece)} (h : ∀ piece ∈ pieces, piece.value ≠ closer) :
    stream .comment pieces = [] := by
  induction pieces with
  | nil => rfl
  | cons piece pieces ih =>
    obtain ⟨hpiece, hpieces⟩ := List.forall_mem_cons.1 h
    rw [stream, read_comment_of_ne hpiece]
    exact ih hpieces

/-- Behind the word that closes the comment code goes on. -/
theorem stream_comment_append {front back : List (Located Piece)}
    (h : ∀ piece ∈ front, piece.value ≠ closer) (place : Position) :
    stream .comment (front ++ ⟨closer, place⟩ :: back) = stream .code back := by
  induction front with
  | nil =>
    have hclose : readComment closer = .code := by decide
    simp only [List.nil_append, stream, read, hclose]
  | cons piece front ih =>
    obtain ⟨hpiece, hfront⟩ := List.forall_mem_cons.1 h
    rw [List.cons_append, stream, read_comment_of_ne hpiece]
    exact ih hfront

/-! ## Lines -/

/-- What follows a line feed is read from where the reader is, as many lines further down as have
ended. -/
theorem ofSource_newline {a : String} {ts : List (Located Token)} (h : ofSource a = .ok ts)
    (b : String) :
    ofSource (a ++ "\n" ++ b) =
      (movedReading (.down (a.toList.count '\n' + 1)) (collect (stream
        (if commentOpen (Piece.split a.toList) then .comment else .code) (Piece.ofSource b)))).map
          (ts ++ ·) := by
  have htext : (a ++ "\n" ++ b).toList = a.toList ++ '\n' :: b.toList := by
    simp [String.toList_append]
  have hpieces : Piece.ofSource (a ++ "\n" ++ b) = Piece.ofSource a ++
      (Piece.ofSource b).map (Located.moved (.down (a.toList.count '\n' + 1))) := by
    rw [Piece.ofSource, htext]
    exact Piece.ofChars_newline a.toList b.toList
  have hvalues : (Piece.ofSource a).map Located.value = Piece.split a.toList :=
    Piece.map_value_ofChars .first a.toList
  rw [ofSource, streamOf, hpieces, collect_stream_append h, hvalues, ← collect_moved, ← stream_moved]
  split <;> rfl

/-- What is read of a text that starts at the place, as code. -/
def readFrom (place : Position) (text : List Char) :
    Except (Located ScanError) (List (Located Token)) :=
  collect (stream .code (Piece.ofChars place text))

/-- Behind a text with tokens and a line feed, what follows is read as it is read alone, as many lines
further down as have ended. If a comment is open, this holds of what is behind the word that closes it,
and nothing is read if there is none. -/
theorem ofSource_lines {a b : String} {ts : List (Located Token)} (h : ofSource a = .ok ts) :
    (commentOpen (Piece.split a.toList) = false →
      ofSource (a ++ "\n" ++ b) =
        (movedReading (.down (a.toList.count '\n' + 1)) (ofSource b)).map (ts ++ ·)) ∧
    (commentOpen (Piece.split a.toList) = true →
      (∀ before after, Closes b.toList before after →
        ofSource (a ++ "\n" ++ b) =
          (movedReading (.down (a.toList.count '\n' + 1))
            (readFrom (.behind (before ++ closer.text.toList)) after)).map (ts ++ ·)) ∧
      ((∀ before after, ¬ Piece.Stands b.toList before closer after) →
        ofSource (a ++ "\n" ++ b) = .ok ts)) := by
  have hwhole := ofSource_newline h b
  refine ⟨fun hcode => ?_, fun hcomment => ⟨fun before after hcloses => ?_, fun hnone => ?_⟩⟩
  · rw [hcode] at hwhole
    exact hwhole
  · rw [hcomment, Piece.ofSource, hcloses.ofChars, if_pos rfl,
      stream_comment_append hcloses.not_mem] at hwhole
    exact hwhole
  · rw [hcomment, Piece.ofSource, if_pos rfl,
      stream_comment (Piece.ne_closer_of_not_stands hnone)] at hwhole
    rw [hwhole]
    simp [collect, movedReading, Except.map]

/-- A value in two lines, and a comment that the second line closes or not. -/
theorem ofSource_lines_commented :
    ofSource "fax" = .ok [⟨.pop, ⟨1, 1⟩⟩] ∧ ofSource "fax pause" = .ok [⟨.pop, ⟨1, 1⟩⟩] ∧
      ofSource ("fax" ++ "\n" ++ " fax") = .ok [⟨.pop, ⟨1, 1⟩⟩, ⟨.pop, ⟨2, 2⟩⟩] ∧
      ofSource ("fax" ++ "\n" ++ " #") = .error ⟨.unexpectedCharacter '#', ⟨2, 2⟩⟩ ∧
      Closes "( play fax".toList "( ".toList " fax".toList ∧
      ofSource ("fax pause" ++ "\n" ++ "( play fax") = .ok [⟨.pop, ⟨1, 1⟩⟩, ⟨.pop, ⟨2, 8⟩⟩] ∧
      ofSource ("fax pause" ++ "\n" ++ "fax") = .ok [⟨.pop, ⟨1, 1⟩⟩] := by
  have hcode : ofSource "fax" = .ok [⟨.pop, ⟨1, 1⟩⟩] := by rfl
  have hcomment : ofSource "fax pause" = .ok [⟨.pop, ⟨1, 1⟩⟩] := by rfl
  have hcloses : Closes "( play fax".toList "( ".toList " fax".toList := by
    have hword : Piece.IsWord Vocabulary.commentEnd.toList := by decide
    refine ⟨⟨by decide, hword, ?_, ?_⟩, ?_⟩
    · rintro c ⟨⟩ hc
      cases hc
    · intro _ _ _
      rfl
    · rintro before after ⟨htext, -, -, -⟩
      rcases before with _ | ⟨c, _ | ⟨d, before⟩⟩
      · cases htext
      · cases htext
      · simp
  have hopen : ∀ before after, ¬ Piece.Stands "fax".toList before closer after := by
    rintro before after ⟨htext, -, -, -⟩
    have hlength := congrArg List.length htext
    simp only [closer, Piece.text, Vocabulary.commentEnd, String.ofList_toList, List.length_append]
      at hlength
    have hword : "play".toList.length = 4 := by decide
    have hfax : "fax".toList.length = 3 := by decide
    omega
  refine ⟨hcode, hcomment, (ofSource_lines hcode).1 (by decide), (ofSource_lines hcode).1 (by decide),
    hcloses, ?_, ?_⟩
  · exact ((ofSource_lines hcomment).2 (by decide)).1 _ _ hcloses
  · exact ((ofSource_lines hcomment).2 (by decide)).2 hopen

end Token
end VerbScript
