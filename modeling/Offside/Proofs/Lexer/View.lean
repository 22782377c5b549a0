import Offside.Proofs.Lexer.Gaps

/-!
What a driver sees of a lexer. A driver that makes a diagnostic asks a source for the line at which
it stands, for the place on that line, and for what has not been read, and cuts a text by the
answers. The cursor stands behind what was read of its line, and this alone makes them fit together.
It survives every token, every failure and every request for dedents; only behind a newline token is
the line already over, and its line feed read.
-/

namespace Offside

open Text

namespace Cursor

variable {cur : Cursor} {text opened read r rest : List Char}

/-- A cursor stands on the line that starts behind `opened`, and has read `read` of it. -/
structure OnLine (text opened read : List Char) (cur : Cursor) : Prop where
  text_eq : text = opened ++ (read ++ cur.rest)
  lineStart : cur.lineStart = byteLength opened
  offset : cur.offset = byteLength opened + byteLength read
  lineText : cur.lineText = read ++ cur.rest

theorem onLine_start (text : List Char) : OnLine text [] [] (start text) :=
  ⟨rfl, rfl, rfl, rfl⟩

theorem rest_skipChar {c : Char} (hrest : cur.rest = c :: rest) : (cur.skipChar c).rest = rest := by
  simp [Cursor.skipChar, hrest]

theorem OnLine.skipChar {c : Char} (h : OnLine text opened read cur)
    (hrest : cur.rest = c :: rest) :
    OnLine text opened (read ++ [c]) (cur.skipChar c) := by
  have hmoved : cur.rest = [c] ++ (cur.skipChar c).rest := by
    rw [rest_skipChar hrest, hrest, List.singleton_append]
  refine ⟨?_, h.lineStart, ?_, ?_⟩
  · rw [h.text_eq, hmoved, List.append_assoc]
  · rw [byteLength_append, ← Nat.add_assoc, ← h.offset]
    rfl
  · rw [List.append_assoc, ← hmoved]
    exact h.lineText

theorem OnLine.skip (h : OnLine text opened read cur) (hrest : cur.rest = r ++ rest) :
    OnLine text opened (read ++ r) (cur.skip r) := by
  induction r generalizing cur read with
  | nil => rwa [skip_nil, List.append_nil]
  | cons c r ih =>
    have hskipped := ih (h.skipChar hrest) (rest_skipChar hrest)
    rwa [skip_cons, List.append_cons]

/-- Where a line is opened, all that was read stands before it. -/
theorem OnLine.openLine (h : OnLine text opened read cur) :
    OnLine text (opened ++ read) [] cur.openLine := by
  refine ⟨?_, ?_, ?_, rfl⟩
  · rw [h.text_eq, List.append_assoc]
    rfl
  · rw [byteLength_append]
    exact h.offset
  · rw [byteLength_append, byteLength_nil, Nat.add_zero]
    exact h.offset

/-- A cursor that advances has read no line feed of the line on which it comes to stand. -/
theorem OnLine.advance (h : OnLine text opened read cur) (hread : '\n' ∉ read)
    (hrest : cur.rest = r ++ rest) :
    ∃ opened' read', OnLine text opened' read' (cur.advance r) ∧ '\n' ∉ read' := by
  induction r, cur using advance_induction generalizing opened read with
  | nil cur => exact ⟨opened, read, by rwa [Cursor.advance], hread⟩
  | joined r cur ih =>
    rw [advance_joined]
    exact ih ((h.skipChar hrest).skipChar (rest_skipChar hrest)).openLine List.not_mem_nil
      (rest_skipChar (rest_skipChar hrest))
  | lineBreak c r cur _ _ hstep ih =>
    rw [hstep]
    exact ih (h.skipChar hrest).openLine List.not_mem_nil (rest_skipChar hrest)
  | other c r cur _ hbreak hstep ih =>
    rw [hstep]
    refine ih (h.skipChar hrest) (fun hmem => ?_) (rest_skipChar hrest)
    rcases List.mem_append.1 hmem with hmem | hmem
    · exact hread hmem
    · rw [← List.mem_singleton.1 hmem] at hbreak
      exact absurd hbreak (by decide)

/-- A line up to its line feed, which belongs to it. -/
def upToFeed : List Char → List Char
  | [] => []
  | c :: rest => if c = '\n' then [c] else c :: upToFeed rest

theorem upToFeed_append (hread : '\n' ∉ read) (rest : List Char) :
    upToFeed (read ++ rest) = read ++ upToFeed rest := by
  induction read with
  | nil => rfl
  | cons c read ih =>
    obtain ⟨hc, hread⟩ := List.ne_and_not_mem_of_not_mem_cons hread
    rw [List.cons_append, upToFeed, if_neg (Ne.symm hc), ih hread, List.cons_append]

theorem upToFeed_prefix (text : List Char) : upToFeed text <+: text := by
  induction text with
  | nil => exact List.prefix_refl _
  | cons c rest ih =>
    rw [upToFeed]
    split
    · exact List.prefix_iff_eq_append.2 rfl
    · exact (List.prefix_cons_inj c).2 ih

theorem feed_not_mem_upToFeed (text : List Char) : '\n' ∉ (upToFeed text).dropLast := by
  induction text with
  | nil => exact List.not_mem_nil
  | cons c rest ih =>
    rw [upToFeed]
    split
    · exact List.not_mem_nil
    · next hc =>
      cases hrest : upToFeed rest with
      | nil => exact List.not_mem_nil
      | cons d line =>
        rw [List.dropLast_cons_cons, ← hrest]
        exact List.not_mem_cons_of_ne_of_not_mem (Ne.symm hc) ih

theorem upToFeed_eq (text : List Char) :
    upToFeed text =
      if text.length = (text.takeWhile (· != '\n')).length then text.takeWhile (· != '\n')
      else text.takeWhile (· != '\n') ++ ['\n'] := by
  induction text with
  | nil => rfl
  | cons c rest ih =>
    rw [upToFeed, List.takeWhile_cons]
    by_cases hc : c = '\n'
    · subst hc
      rfl
    · have hp : (c != '\n') = true := bne_iff_ne.2 hc
      rw [if_neg hc, if_pos hp, ih, List.length_cons, List.length_cons]
      simp only [Nat.add_right_cancel_iff]
      split <;> rfl

theorem lineBuffer?_eq (cur : Cursor) :
    cur.lineBuffer? =
      if (upToFeed cur.lineText).isEmpty then none
      else some (String.ofList (upToFeed cur.lineText)) := by
  rw [upToFeed_eq]
  rfl

/-- What was read of a line is the line's front: a line feed has not been read, or nothing behind
it. -/
theorem exists_ahead (hread : '\n' ∉ read.dropLast) (rest : List Char) :
    ∃ ahead, upToFeed (read ++ rest) = read ++ ahead ∧ ahead <+: rest := by
  by_cases hfeed : '\n' ∈ read
  -- the line feed is the last that was read, so the line ends there
  · obtain ⟨before, c, rfl⟩ : ∃ before c, read = before ++ [c] :=
      ⟨_, _, (List.dropLast_concat_getLast (List.ne_nil_of_mem hfeed)).symm⟩
    rw [List.dropLast_concat] at hread
    obtain rfl : c = '\n' := by
      rcases List.mem_append.1 hfeed with hfeed | hfeed
      · exact absurd hfeed hread
      · exact (List.mem_singleton.1 hfeed).symm
    refine ⟨[], ?_, List.nil_prefix⟩
    rw [List.append_assoc, upToFeed_append hread, List.append_assoc]
    rfl
  · exact ⟨upToFeed rest, upToFeed_append hfeed rest, upToFeed_prefix rest⟩

end Cursor

namespace Lexer

variable {lx ly : Lexer} {text r rest : List Char}

/-- A lexer stands within a line, whose line feed it has not read. -/
structure Within (text : List Char) (lx : Lexer) : Prop where
  text_eq : lx.text = text
  sameLine : lx.lineEnded = false
  onLine : ∃ opened read, lx.cursor.OnLine text opened read ∧ '\n' ∉ read

/-- A lexer handed out a newline token, and stands behind the line break that ended its line. -/
structure BehindLine (text : List Char) (lx : Lexer) : Prop where
  text_eq : lx.text = text
  lineEnded : lx.lineEnded = true
  onLine : ∃ opened read, lx.cursor.OnLine text opened read ∧ '\n' ∉ read.dropLast

/-- Where a lexer stands between two requests. -/
inductive Viewed (text : List Char) (lx : Lexer) : Prop
  | within (h : Within text lx)
  | behind (h : BehindLine text lx)

theorem within_ofSource (asyncAlways : Bool) (source : Source) :
    Within source.text (ofSource asyncAlways source) :=
  ⟨rfl, rfl, [], [], Cursor.onLine_start _, List.not_mem_nil⟩

theorem Within.advance (h : Within text lx) (hrest : lx.cursor.rest = r ++ rest) :
    Within text (lx.advance r) := by
  obtain ⟨opened, read, honLine, hread⟩ := h.onLine
  exact ⟨h.text_eq, h.sameLine, honLine.advance hread hrest⟩

theorem Within.skipLayout (h : Within text lx) : Within text lx.skipLayout :=
  h.advance List.takeWhile_append_dropWhile.symm

theorem Within.readBreak {br : List Char} (h : Within text lx)
    (hbreak : lineBreak? lx.cursor.rest = some (br, rest)) : Within text (lx.readBreak br) := by
  have hadvance := h.advance (lineBreak?_eq_some hbreak).1
  exact ⟨hadvance.text_eq, hadvance.sameLine, hadvance.onLine⟩

theorem Within.afterPragma (h : Within text lx) : Within text lx.afterPragma := by
  unfold Lexer.afterPragma
  split
  · next hbreak =>
    split
    · exact h.readBreak hbreak
    · exact h
  · exact h

/-- A line break that ends a line of code is the last that was read of the line. -/
theorem Within.endCode {br : List Char} (h : Within text lx)
    (hbreak : lineBreak? lx.cursor.rest = some (br, rest)) : BehindLine text (lx.endCode br) := by
  obtain ⟨opened, read, honLine, hread⟩ := h.onLine
  obtain ⟨hrest, _, hbr⟩ := lineBreak?_eq_some hbreak
  refine ⟨h.text_eq, rfl, opened, read ++ br, honLine.skip hrest, ?_⟩
  rcases hbr with rfl | rfl | rfl
  · rw [List.append_cons, List.dropLast_concat, List.mem_append]
    exact fun hmem => hmem.elim hread (by decide)
  · rwa [List.dropLast_concat]
  · rwa [List.dropLast_concat]

theorem Within.takeDue? {x : Lexeme} (h : Within text lx) (hdue : lx.takeDue? = some (x, ly)) :
    Within text ly := by
  unfold Lexer.takeDue? at hdue
  split at hdue
  · obtain ⟨_, rfl⟩ := Prod.mk.inj (Option.some.inj hdue)
    exact ⟨h.text_eq, h.sameLine, h.onLine⟩
  · split at hdue
    · obtain ⟨_, rfl⟩ := Prod.mk.inj (Option.some.inj hdue)
      exact ⟨h.text_eq, h.sameLine, h.onLine⟩
    · cases hdue

theorem Within.measureLine (h : Within text lx) : Within text lx.measureLine.2 := by
  have hskip := h.skipLayout
  rw [measureLine_frame]
  exact ⟨hskip.text_eq, hskip.sameLine, hskip.onLine⟩

theorem Within.settles (h : Within text lx) (hsettles : lx.Settles ly) : Within text ly := by
  rcases hsettles with ⟨_, hmeasure⟩ | ⟨_, rfl⟩
  · have hwithin := h.measureLine
    rwa [hmeasure] at hwithin
  · exact h

/-- Where a turn leaves a lexer. Only a turn that hands out a lexeme can leave it behind a line. -/
inductive Leaves (text : List Char) : Outcome × Lexer → Prop
  | within {o : Outcome} {ly : Lexer} (h : Within text ly) : Leaves text (o, ly)
  | behind {x : Lexeme} {ly : Lexer} (h : BehindLine text ly) : Leaves text (.lexeme x, ly)

theorem Piece.leaves {o : Outcome × Lexer} (hpiece : Piece lx o) (h : Within text lx) :
    Leaves text o := by
  cases hpiece with
  | ended => exact .within ⟨h.text_eq, h.sameLine, h.onLine⟩
  | comment hrest => exact .within (h.advance hrest)
  | pragma hrest => exact .within (h.advance hrest).afterPragma
  | blankBreak hbreak => exact .within (h.readBreak hbreak)
  | newline hbreak => exact .behind (h.endCode hbreak)
  | @joined br rest c hrest =>
    have hescape := h.advance (r := ['\\']) hrest
    have hrest' : (lx.advance ['\\']).cursor.rest = br ++ c :: rest := by
      rw [rest_advance, hrest]
      rfl
    exact .within (hescape.advance hrest')
  | @brokenOff br hrest =>
    have hescape := h.advance (r := ['\\']) hrest
    have hrest' : (lx.advance ['\\']).cursor.rest = br ++ [] := by
      rw [rest_advance, hrest, List.append_nil]
      rfl
    exact .within (hescape.advance hrest')
  | stray hrest => exact .within (h.advance (r := ['\\']) hrest)
  | literal hrest => exact .within (h.advance hrest)
  | unended hscan =>
    obtain ⟨rest, hrest⟩ := Literal.append_of_stretch? hscan
    exact .within (h.advance hrest)
  | plain hrest _ hclassify =>
    have hadvance := h.advance hrest
    rw [plain_frame hclassify]
    exact .within ⟨hadvance.text_eq, hadvance.sameLine, hadvance.onLine⟩
  | @bad c rest hrest => exact .within (h.advance (r := [c]) hrest)

theorem turn_leaves (h : Within text lx) : Leaves text lx.turn := by
  have hturned := turned lx
  generalize lx.turn = o at hturned
  cases hturned with
  | due hdue => exact .within (h.takeDue? hdue)
  | misplaced _ _ hmeasure =>
    have hwithin := h.measureLine
    rw [hmeasure] at hwithin
    exact .within hwithin
  | indented _ hsettles hdue => exact .within ((h.settles hsettles).takeDue? hdue)
  | read _ hsettles _ hpiece => exact hpiece.leaves (h.settles hsettles).skipLayout

theorem Viewed.fail (h : Viewed text lx) (e : LexError) : Viewed text (lx.fail e) := by
  cases h with
  | within h => exact .within ⟨h.text_eq, h.sameLine, h.onLine⟩
  | behind h => exact .behind ⟨h.text_eq, h.lineEnded, h.onLine⟩

theorem Within.scan (h : Within text lx) : Viewed text lx.scan.2 := by
  have hleaves := turn_leaves h
  fun_induction Lexer.scan lx with
  | case1 lx x ly hturn =>
    rw [hturn] at hleaves
    cases hleaves with
    | within h => exact .within h
    | behind h => exact .behind h
  | case2 lx e ly hturn =>
    rw [hturn] at hleaves
    cases hleaves with
    | within h => exact Viewed.fail (.within h) e
  | case3 lx ly hturn _ ih =>
    rw [hturn] at hleaves
    cases hleaves with
    | within h => exact ih h (turn_leaves h)

theorem Viewed.leaveLine (h : Viewed text lx) : Within text lx.leaveLine := by
  cases h with
  | within h =>
    rw [leaveLine_of_same_line h.sameLine]
    exact h
  | behind h =>
    obtain ⟨opened, read, honLine, _⟩ := h.onLine
    rw [Lexer.leaveLine, if_pos h.lineEnded]
    exact ⟨h.text_eq, rfl, _, [], honLine.openLine, List.not_mem_nil⟩

theorem Viewed.next (h : Viewed text lx) : Viewed text lx.next.2 := by
  unfold Lexer.next
  split
  · exact h
  · exact h.leaveLine.scan

theorem Viewed.queueDedents (h : Viewed text lx) (n : Nat) : Viewed text (lx.queueDedents n) := by
  cases h with
  | within h => exact .within ⟨h.text_eq, h.sameLine, h.onLine⟩
  | behind h => exact .behind ⟨h.text_eq, h.lineEnded, h.onLine⟩

theorem Viewed.onLine (h : Viewed text lx) :
    ∃ opened read, lx.cursor.OnLine text opened read ∧ '\n' ∉ read.dropLast := by
  cases h with
  | within h =>
    obtain ⟨opened, read, honLine, hread⟩ := h.onLine
    exact ⟨opened, read, honLine, fun hmem => hread (List.dropLast_subset _ hmem)⟩
  | behind h => exact h.onLine

/-- What a driver may ask of a lexer, whatever it was told before. -/
inductive Request
  | next
  | queueDedents (n : Nat)

/-- A lexer after a request, whether that gave a token or an error. -/
def after (lx : Lexer) : Request → Lexer
  | .next => (TokenSource.next lx).2
  | .queueDedents n => TokenSource.queueDedents n lx

theorem Viewed.after (h : Viewed text lx) (request : Request) : Viewed text (lx.after request) := by
  cases request with
  | next => exact h.next
  | queueDedents n => exact h.queueDedents n

theorem Viewed.requests (h : Viewed text lx) (requests : List Request) :
    Viewed text (requests.foldl Lexer.after lx) := by
  induction requests generalizing lx with
  | nil => exact h
  | cons request requests ih => exact ih (h.after request)

/-- The line at which a lexer stands, and the place on it. -/
structure Buffers (text line : List Char) (lx : Lexer) : Prop where
  slice : slice? text lx.cursor.lineStart (lx.cursor.lineStart + byteLength line) = some line
  feed : '\n' ∉ line.dropLast
  offset_le : TokenSource.offset lx ≤ byteLength line
  ahead : ∃ ahead, slice? line (TokenSource.offset lx) (byteLength line) = some ahead ∧
    ahead <+: TokenSource.remaining lx

/-- A position at which a text can be cut in two. -/
def IsBoundary (text : List Char) (position : Nat) : Prop :=
  ∃ before behind, text = before ++ behind ∧ byteLength before = position

/-- What a lexer tells of its text fits together. -/
structure Coherent (text : List Char) (lx : Lexer) : Prop where
  lineStart : IsBoundary text lx.cursor.lineStart
  offset : IsBoundary text lx.cursor.offset
  lineStart_le : lx.cursor.lineStart ≤ lx.cursor.offset
  offset_le : lx.cursor.offset ≤ byteLength text
  remaining : slice? text lx.cursor.offset (byteLength text) = some (TokenSource.remaining lx)
  buffered : ∀ line, TokenSource.buffered? lx = some line → Buffers text line.toList lx
  unbuffered : TokenSource.buffered? lx = none → TokenSource.offset lx = 0

theorem slice?_to_end (before rest : List Char) :
    slice? (before ++ rest) (byteLength before) (byteLength (before ++ rest)) = some rest := by
  have hslice := slice?_append before rest []
  rwa [List.append_nil, ← byteLength_append] at hslice

variable {opened read : List Char}

theorem offset_of_onLine (h : lx.cursor.OnLine text opened read) :
    TokenSource.offset lx = byteLength read := by
  show lx.cursor.offset - lx.cursor.lineStart = _
  rw [h.offset, h.lineStart, Nat.add_sub_cancel_left]

theorem buffers_of_onLine (h : lx.cursor.OnLine text opened read) (hread : '\n' ∉ read.dropLast) :
    Buffers text (Cursor.upToFeed lx.cursor.lineText) lx := by
  obtain ⟨ahead, hline, left, hrest⟩ := Cursor.exists_ahead hread lx.cursor.rest
  rw [← h.lineText] at hline
  refine ⟨?_, Cursor.feed_not_mem_upToFeed _, ?_, ahead, ?_, left, hrest⟩
  · rw [h.lineStart, h.text_eq, ← hrest, ← List.append_assoc read, ← hline]
    exact slice?_append opened _ left
  · rw [offset_of_onLine h, hline, byteLength_append]
    exact Nat.le_add_right _ _
  · rw [offset_of_onLine h, hline]
    exact slice?_to_end read ahead

/-- Without a line there is nothing that a lexer could have read of it. -/
theorem offset_of_no_line (h : lx.cursor.OnLine text opened read) (hread : '\n' ∉ read.dropLast)
    (hline : Cursor.upToFeed lx.cursor.lineText = []) : TokenSource.offset lx = 0 := by
  obtain ⟨ahead, happend, _⟩ := Cursor.exists_ahead hread lx.cursor.rest
  rw [← h.lineText, hline] at happend
  rw [offset_of_onLine h, (List.append_eq_nil_iff.1 happend.symm).1, byteLength_nil]

theorem Viewed.coherent (h : Viewed text lx) : Coherent text lx := by
  obtain ⟨opened, read, honLine, hread⟩ := h.onLine
  have hoffset : lx.cursor.offset = byteLength (opened ++ read) := by
    rw [honLine.offset, byteLength_append]
  have htext : text = (opened ++ read) ++ lx.cursor.rest := by
    rw [List.append_assoc]
    exact honLine.text_eq
  have hbuffered : TokenSource.buffered? lx =
      if (Cursor.upToFeed lx.cursor.lineText).isEmpty then none
      else some (String.ofList (Cursor.upToFeed lx.cursor.lineText)) :=
    Cursor.lineBuffer?_eq lx.cursor
  refine ⟨⟨opened, _, honLine.text_eq, honLine.lineStart.symm⟩, ⟨_, _, htext, hoffset.symm⟩, ?_, ?_,
    ?_, fun line hline => ?_, fun hnone => ?_⟩
  · rw [honLine.offset, honLine.lineStart]
    exact Nat.le_add_right _ _
  · rw [hoffset, htext, byteLength_append (opened ++ read)]
    exact Nat.le_add_right _ _
  · rw [hoffset, htext]
    exact slice?_to_end _ _
  · rw [hbuffered] at hline
    split at hline
    · cases hline
    · rw [← Option.some.inj hline, String.toList_ofList]
      exact buffers_of_onLine honLine hread
  · rw [hbuffered] at hnone
    split at hnone
    · next hempty => exact offset_of_no_line honLine hread (List.isEmpty_iff.1 hempty)
    · cases hnone

/-- Whatever a driver asks for and whatever it is told, the two positions are character boundaries
in order, what has not been read starts at the one, and the line that starts at the other is one
line, which goes on behind the cursor as what has not been read does. -/
theorem coherent_of_requests (asyncAlways : Bool) (source : Source) (requests : List Request) :
    Coherent source.text (requests.foldl Lexer.after (ofSource asyncAlways source)) :=
  (Viewed.requests (.within (within_ofSource asyncAlways source)) requests).coherent

end Lexer
end Offside
