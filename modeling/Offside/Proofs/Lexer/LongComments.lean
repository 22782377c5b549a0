import Offside.Proofs.Lexer.Comments
import Offside.Proofs.Source.Cookies
import Offside.Proofs.Source.Sizes

/-!
Lines that positions do not reach. A source is admitted by the number of its bytes, and in Latin-1
half of the bytes take up two bytes of the text. So a comment of two gigabytes puts the line behind
it past the largest position, and a word on that line is handed out without its text.
-/

namespace Offside

open Text Cursor

/-- A comment of letters that are one byte each in Latin-1, and two bytes in the text. -/
def longComment (n : Nat) : List Char := '#' :: List.replicate n 'é'

theorem unbroken_longComment (n : Nat) : Unbroken (longComment n) := by
  refine unbroken_cons.2 ⟨by decide, fun c hc => ?_⟩
  rw [List.eq_of_mem_replicate hc]
  rfl

theorem byteLength_longComment (n : Nat) : byteLength (longComment n) = 1 + 2 * n := by
  have hhash : '#'.utf8Size = 1 := rfl
  have hletter : 'é'.utf8Size = 2 := rfl
  have hletters : byteLength (List.replicate n 'é') = 2 * n := by
    induction n with
    | zero => rfl
    | succ n ih =>
      rw [List.replicate_succ, byteLength_cons, ih, hletter]
      omega
  rw [longComment, byteLength_cons, hletters, hhash]

theorem tag?_longComment (n : Nat) : Pragma.tag? (longComment n) = none := by
  cases n with
  | zero => rfl
  | succ n => rfl

namespace Source

/-- A source declared to be Latin-1, with no mark and no cookie, is read byte by byte. -/
theorem decode_latin1 {bytes : List UInt8} (hsize : bytes.length ≤ maxPosition)
    (hmark : cutMark bytes = (bytes, false)) (hcookie : cookie? bytes = none) :
    decode .cookie (some "latin-1") bytes =
      .ok ⟨bytes.map Codec.charOfByte, some "iso-8859-1"⟩ := by
  have hname : canonicalName "latin-1" = "iso-8859-1" := by decide
  rw [decode, if_neg (Nat.not_lt.2 hsize), hmark]
  dsimp only
  rw [hcookie, Option.map_none, Option.map_some, hname]
  rfl

theorem cutLine_cons {b : UInt8} (hb : b ≠ 10) (bytes : List UInt8) :
    (cutLine (b :: bytes)).1 = b :: (cutLine bytes).1 := by
  have hfeed : (b != 10) = true := bne_iff_ne.2 hb
  unfold cutLine
  rw [List.dropWhile_cons, hfeed, if_pos rfl, List.takeWhile_cons, hfeed, if_pos rfl]
  split <;> rfl

/-- Two such letters are no UTF-8. -/
theorem decode_letters (more : List UInt8) :
    (Text.decode (0x23 :: 0xE9 :: 0xE9 :: more)).isOk = false := by
  have hhash : decodeChar? (0x23 :: 0xE9 :: 0xE9 :: more) = some ('#', 0xE9 :: 0xE9 :: more) := rfl
  have hletter : decodeChar? (0xE9 :: 0xE9 :: more) = none := by
    cases more <;> rfl
  rw [Text.decode, decodeFrom_of_some hhash, decodeFrom_of_none (List.cons_ne_nil _ _) hletter]
  rfl

/-- A comment that is not UTF-8 ends the search for a cookie. -/
theorem cookie?_of_letters (more : List UInt8) : cookie? (0x23 :: 0xE9 :: 0xE9 :: more) = none := by
  have hline : (cutLine (0x23 :: 0xE9 :: 0xE9 :: more)).1 =
      0x23 :: 0xE9 :: 0xE9 :: (cutLine more).1 := by
    rw [cutLine_cons (by decide), cutLine_cons (by decide), cutLine_cons (by decide)]
  have herror := decode_letters (cutLine more).1
  rw [← hline] at herror
  rw [cookie?, cookieInLines?]
  generalize cutLine (0x23 :: 0xE9 :: 0xE9 :: more) = cut at herror
  obtain ⟨line, rest⟩ := cut
  dsimp only at herror ⊢
  cases hdecode : Text.decode line with
  | error i => rfl
  | ok text =>
    rw [hdecode] at herror
    cases herror

theorem decode_longComment {n : Nat} {more : List UInt8} (hn : 2 ≤ n)
    (hsize : 1 + n + more.length ≤ maxPosition) :
    decode .cookie (some "latin-1") (0x23 :: (List.replicate n 0xE9 ++ more)) =
      .ok ⟨longComment n ++ more.map Codec.charOfByte, some "iso-8859-1"⟩ := by
  obtain ⟨n, rfl⟩ := Nat.exists_eq_add_of_le' hn
  have hbytes : (0x23 :: (List.replicate (n + 2) 0xE9 ++ more)).length ≤ maxPosition := by
    rw [List.length_cons, List.length_append, List.length_replicate]
    omega
  have hmark : cutMark (0x23 :: (List.replicate (n + 2) 0xE9 ++ more)) =
      (0x23 :: (List.replicate (n + 2) 0xE9 ++ more), false) := by
    refine cutMark_of_head fun b hb => ?_
    obtain rfl : 0x23 = b := Option.some.inj hb
    decide
  have hletters : (List.replicate (n + 2) (0xE9 : UInt8)).map Codec.charOfByte =
      List.replicate (n + 2) 'é' := List.map_replicate
  rw [decode_latin1 hbytes hmark (cookie?_of_letters _), List.map_cons, List.map_append, hletters]
  rfl

end Source

namespace Lexer

variable {asyncAlways : Bool} {s : Source} {n : Nat} {rest comment br word : List Char}
  {kind : Kind}

/-- A lexer behind the first line, which held so many bytes and no code. -/
def onSecondLine (asyncAlways : Bool) (s : Source) (n : Nat) (rest : List Char) : Lexer :=
  { ofSource asyncAlways s with cursor := ⟨rest, n, 2, n, rest⟩, blankLine := true }

/-- The same lexer behind a word on the second line. -/
def behindWord (asyncAlways : Bool) (s : Source) (n : Nat) (word rest : List Char) : Lexer :=
  { ofSource asyncAlways s with
    cursor := ⟨rest, n + byteLength word, 2, n, word ++ rest⟩
    atLineStart := false }

theorem next_behindComment (hhash : ∀ c ∈ comment.head?, c = '#') (hcomment : Unbroken comment)
    (htag : Pragma.tag? comment = none) (hbreak : lineBreak? (br ++ rest) = some (br, rest))
    (htext : s.text = comment ++ (br ++ rest)) :
    (ofSource asyncAlways s).next =
      (onSecondLine asyncAlways s (byteLength (comment ++ br)) rest).next := by
  have hrest : (ofSource asyncAlways s).cursor.rest = [] ++ (comment ++ (br ++ rest)) := htext
  obtain ⟨hskips, hcrosses⟩ := (atLine_ofSource asyncAlways s).skips hrest
    (fun c hc => absurd hc List.not_mem_nil) hhash hcomment htag hbreak
  have hbreak' : lineBreak? ((Cursor.start s.text).skip comment).rest = some (br, rest) := by
    rw [rest_skip, Cursor.start, htext, List.drop_left, hbreak]
  have hcursor : (Cursor.start s.text).advance (comment ++ br) =
      ⟨rest, byteLength (comment ++ br), 2, byteLength (comment ++ br), rest⟩ := by
    rw [advance_append (not_splits_of_unbroken hcomment br), advance_of_unbroken hcomment,
      ← openLine_skip hbreak', skip_eq br, rest_skip, skip_eq comment, Cursor.start, htext,
      List.drop_left, List.drop_left, byteLength_append]
    simp only [Cursor.openLine, Nat.zero_add]
    rfl
  have hstate : (((ofSource asyncAlways s).startLine true).advance comment).readBreak br =
      onSecondLine asyncAlways s (byteLength (comment ++ br)) rest := by
    have hframe : (((ofSource asyncAlways s).startLine true).advance comment).readBreak br =
        { ofSource asyncAlways s with
          cursor :=
            ((((ofSource asyncAlways s).startLine true).advance comment).readBreak br).cursor
          blankLine := true } := rfl
    rw [hframe, hcrosses.moved, List.nil_append, onSecondLine, ← hcursor]
    rfl
  have hlive : ∀ e, (ofSource asyncAlways s).stop ≠ .failed e := fun e => StopReason.noConfusion
  have hlive' : ∀ e, (onSecondLine asyncAlways s (byteLength (comment ++ br)) rest).stop ≠
      .failed e := fun e => StopReason.noConfusion
  rw [next_of_not_failed hlive, next_of_not_failed hlive', leaveLine_of_same_line rfl,
    leaveLine_of_same_line rfl, hskips.scan, hstate]

/-- On a second line that holds a word there are the word, the end of the line, and the end. -/
theorem tokens_onSecondLine (hbr : br = ['\n'] ∨ br = ['\r', '\n']) (hkind : kind ≠ .endMarker)
    (hturn : (onSecondLine asyncAlways s n (word ++ br)).turn =
      (.lexeme (Cursor.lexeme kind word ⟨word ++ br, n, 2, n, word ++ br⟩),
        behindWord asyncAlways s n word br)) :
    (onSecondLine asyncAlways s n (word ++ br)).tokens.1 =
      .ok [(Cursor.lexeme kind word ⟨word ++ br, n, 2, n, word ++ br⟩).token,
        (Cursor.lexeme .newline [] ⟨br, n + byteLength word, 2, n, word ++ br⟩).token,
        ⟨.endMarker, "", 3, none⟩] := by
  have hnext : (onSecondLine asyncAlways s n (word ++ br)).next = (.ok _, _) :=
    (next_of_not_failed fun e => StopReason.noConfusion).trans (scan_of_lexeme hturn)
  have hnewline : (behindWord asyncAlways s n word br).turn =
      (.lexeme (Cursor.lexeme .newline [] ⟨br, n + byteLength word, 2, n, word ++ br⟩),
        (behindWord asyncAlways s n word br).endCode br) := by
    rcases hbr with rfl | rfl <;> rfl
  have hnext' : (behindWord asyncAlways s n word br).next = (.ok _, _) :=
    (next_of_not_failed fun e => StopReason.noConfusion).trans (scan_of_lexeme hnewline)
  have hlast : ∃ e ly, ((behindWord asyncAlways s n word br).endCode br).next = (.ok e, ly) ∧
      e.token = ⟨.endMarker, "", 3, none⟩ := by
    rcases hbr with rfl | rfl
    all_goals
      refine ⟨_, _, (next_of_not_failed fun e => StopReason.noConfusion).trans
        (scan_of_lexeme rfl), rfl⟩
  obtain ⟨e, ly, hlast, he⟩ := hlast
  have hyields : Yields (onSecondLine asyncAlways s n (word ++ br))
      ([Cursor.lexeme kind word ⟨word ++ br, n, 2, n, word ++ br⟩,
        Cursor.lexeme .newline [] ⟨br, n + byteLength word, 2, n, word ++ br⟩] ++ [e]) ly :=
    .cons hnext (.cons hnext' (.cons hlast (.nil ly)))
  have hmarker : e.kind = .endMarker := congrArg Token.kind he
  rw [tokens_of_yields hyields hmarker, List.map_append, List.map_singleton, he]
  · rfl
  · intro x hx
    rcases List.mem_cons.1 hx with rfl | hx
    · rwa [kind_lexeme]
    · rw [List.mem_singleton.1 hx, kind_lexeme]
      decide

/-- A long comment, and a word on the line behind it. -/
theorem tokens_longComment {m : Nat} (htext : s.text = longComment m ++ (br ++ (word ++ br)))
    (hbr : br = ['\n'] ∨ br = ['\r', '\n']) (hbytes : 1 + 2 * m + byteLength br = n)
    (hkind : kind ≠ .endMarker)
    (hturn : (onSecondLine asyncAlways s n (word ++ br)).turn =
      (.lexeme (Cursor.lexeme kind word ⟨word ++ br, n, 2, n, word ++ br⟩),
        behindWord asyncAlways s n word br)) :
    (ofSource asyncAlways s).tokens.1 =
      .ok [(Cursor.lexeme kind word ⟨word ++ br, n, 2, n, word ++ br⟩).token,
        (Cursor.lexeme .newline [] ⟨br, n + byteLength word, 2, n, word ++ br⟩).token,
        ⟨.endMarker, "", 3, none⟩] := by
  have hbreak : lineBreak? (br ++ (word ++ br)) = some (br, word ++ br) := by
    rcases hbr with rfl | rfl <;> rfl
  have hhash : ∀ c ∈ (longComment m).head?, c = '#' := forall_mem_head?_cons.2 rfl
  have hnext : (ofSource asyncAlways s).next = (onSecondLine asyncAlways s _ (word ++ br)).next :=
    next_behindComment hhash (unbroken_longComment m) (tag?_longComment m) hbreak htext
  rw [byteLength_append, byteLength_longComment, hbytes] at hnext
  rw [← tokens_onSecondLine hbr hkind hturn, tokens, tokens, drain, drain, drainFrom_congr hnext]

/-- Where the line starts at the largest position or past it, the word is handed out without its
text. -/
theorem tokens_longComment_of_le {m : Nat} (htext : s.text = longComment m ++ (br ++ (word ++ br)))
    (hbr : br = ['\n'] ∨ br = ['\r', '\n']) (hbytes : 1 + 2 * m + byteLength br = n)
    (hkind : kind ≠ .endMarker) (hword : 0 < byteLength word) (hlong : maxPosition ≤ n)
    (hturn : (onSecondLine asyncAlways s n (word ++ br)).turn =
      (.lexeme (Cursor.lexeme kind word ⟨word ++ br, n, 2, n, word ++ br⟩),
        behindWord asyncAlways s n word br)) :
    (ofSource asyncAlways s).tokens.1 =
      .ok [⟨kind, "", 2, none⟩, ⟨.newline, "", 2, none⟩, ⟨.endMarker, "", 3, none⟩] := by
  rw [tokens_longComment htext hbr hbytes hkind hturn, token_lexeme_of_lt, token_lexeme_of_lt]
  · rfl
  · show maxPosition < n + byteLength word + byteLength []
    rw [byteLength_nil]
    omega
  · show maxPosition < n + byteLength word
    omega

end Lexer
end Offside
