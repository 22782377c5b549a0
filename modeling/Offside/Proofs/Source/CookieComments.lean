import Offside.Proofs.Lexer.Comments
import Offside.Proofs.Source.Sizes

/-!
Cookies and comments. The search for a cookie takes a text apart into lines and comments, and so
does the lexer. They agree on an ASCII text unless a carriage return that stands by itself comes
before the cookie: it ends a line for the lexer, and not for the search.
-/

namespace Offside.Source

open Text

variable {bytes : List UInt8} {line name before cookie after more : List Char} {s : Source}

/-- A text, cut around the cookie that is found in it: the search goes up to a line feed or to the
end of the text. -/
def FindsCookie (text name before cookie after : List Char) : Prop :=
  text = before ++ (cookie ++ after) ∧
    ∃ line rest, after = line ++ rest ∧ (∀ c ∈ rest.head?, c = '\n') ∧
      NamesEncoding name before cookie line

/-- Every carriage return belongs to a line break of two characters. -/
def ReturnsPaired (text : List Char) : Prop :=
  ∀ front back, text = front ++ '\r' :: back → back.head? = some '\n'

theorem ReturnsPaired.of_append {front back : List Char} (h : ReturnsPaired (front ++ back)) :
    ReturnsPaired back := by
  rintro front' back' rfl
  exact h (front ++ front') back' (List.append_assoc ..).symm

theorem unbroken_of_not_mem {text : List Char} (hfeed : '\n' ∉ text) (hreturn : '\r' ∉ text) :
    Unbroken text := by
  intro c hc
  refine Bool.eq_false_iff.2 fun hbreak => ?_
  rw [isBreak, Bool.or_eq_true, beq_iff_eq, beq_iff_eq] at hbreak
  rcases hbreak with rfl | rfl
  · exact hfeed hc
  · exact hreturn hc

theorem ReturnsPaired.unbroken {text : List Char} (h : ReturnsPaired text) (hfeed : '\n' ∉ text) :
    Unbroken text := by
  refine unbroken_of_not_mem hfeed fun hreturn => ?_
  obtain ⟨front, back, rfl⟩ := List.append_of_mem hreturn
  have hback : '\n' ∈ back := List.mem_of_head? (h front back rfl)
  exact hfeed (List.mem_append_right _ (List.mem_cons_of_mem _ hback))

/-- A line that a line feed ends holds no carriage return but one that belongs to the line feed. -/
theorem ReturnsPaired.exists_break (h : ReturnsPaired (line ++ '\n' :: more))
    (hfeed : '\n' ∉ line) :
    ∃ body br, line ++ ['\n'] = body ++ br ∧ Unbroken body ∧
      (br = ['\n'] ∨ br = ['\r', '\n']) := by
  by_cases hreturn : '\r' ∈ line
  · obtain ⟨body, back, rfl, hbody⟩ := List.eq_append_cons_of_mem hreturn
    have hback : '\n' ∉ back := fun hmem =>
      hfeed (List.mem_append_right _ (List.mem_cons_of_mem _ hmem))
    have hpair : (back ++ '\n' :: more).head? = some '\n' :=
      h body _ (by rw [List.append_assoc, List.cons_append])
    have hunbroken := unbroken_of_not_mem (fun hmem => hfeed (List.mem_append_left _ hmem)) hbody
    cases back with
    | nil => exact ⟨body, ['\r', '\n'], List.append_assoc .., hunbroken, Or.inr rfl⟩
    | cons d back =>
      obtain rfl : d = '\n' := Option.some.inj hpair
      exact absurd List.mem_cons_self hback
  · exact ⟨line, ['\n'], rfl, unbroken_of_not_mem hfeed hreturn, Or.inl rfl⟩

/-- A line that the search finds idle is blank or a comment for the lexer too, and leads it to the
next line. -/
theorem IsIdle.nextLine {lx ly : Lexer} (h : IsIdle line) (hfeed : '\n' ∉ line)
    (hpaired : ReturnsPaired (line ++ '\n' :: more)) (hturn : lx.TakesTurn ly) (hly : ly.AtLine)
    {text : List Char} (hrest : ly.cursor.rest = line ++ '\n' :: text) :
    ∃ lz, lx.TakesTurn lz ∧ lz.AtLine ∧ Cursor.Crosses (line ++ ['\n']) ly.cursor lz.cursor ∧
      (breakEnds (line ++ ['\n'])).length = 1 := by
  obtain ⟨blanks, rest, hblanks, rfl, hhead⟩ := h
  have hpaired' : ReturnsPaired (rest ++ '\n' :: more) := by
    rw [List.append_assoc] at hpaired
    exact hpaired.of_append
  obtain ⟨body, br, hline, hbody, hbr⟩ :=
    hpaired'.exists_break fun hmem => hfeed (List.mem_append_right _ hmem)
  have hbreak : lineBreak? (br ++ text) = some (br, text) := by
    rcases hbr with rfl | rfl <;> rfl
  have hhash : ∀ c ∈ body.head?, c = '#' := by
    intro c hc
    obtain ⟨body, rfl⟩ := List.head?_eq_some_iff.1 hc
    have hcode := (unbroken_cons.1 hbody).1
    cases rest with
    | nil =>
      obtain rfl := (List.cons.inj hline).1
      cases hcode
    | cons d rest =>
      obtain rfl := (List.cons.inj hline).1
      rcases hhead _ rfl with rfl | rfl
      · rfl
      · cases hcode
  have hsplit : blanks ++ rest ++ ['\n'] = blanks ++ (body ++ br) := by
    rw [List.append_assoc, hline]
  have hrest' : ly.cursor.rest = blanks ++ (body ++ (br ++ text)) := by
    rw [hrest, List.append_cons, hsplit, List.append_assoc, List.append_assoc]
  obtain ⟨lz, hturn', hlz, hcrosses⟩ := hturn.nextLine hly hrest' hblanks hbody hhash hbreak
  rw [hsplit]
  exact ⟨lz, hturn', hlz, hcrosses, Lexer.length_breakEnds_line hblanks hbody hbreak⟩

theorem Declaration.unbroken (h : Declaration name cookie) : Unbroken cookie := by
  obtain ⟨sign, blanks, hsign, hblanks, -, hname, rfl⟩ := h
  refine unbroken_append.2 ⟨by decide, unbroken_cons.2 ⟨?_, unbroken_append.2 ⟨?_, ?_⟩⟩⟩
  · rcases hsign with rfl | rfl <;> rfl
  · intro c hc
    rcases hblanks c hc with rfl | rfl <;> rfl
  · exact unbroken_of_forall (by decide) (by decide) hname

/-- A comment that declares an encoding is one for the lexer if it starts there on a line. -/
theorem DeclaresIn.inComment {lx ly : Lexer} {opened front rest : List Char}
    (h : DeclaresIn name before cookie after) (hfeed : '\n' ∉ before ++ (cookie ++ after))
    (hpaired : ReturnsPaired front) (hturn : lx.TakesTurn ly) (hly : ly.AtLine)
    (hplaced : Cursor.Placed (front ++ (cookie ++ rest)) opened ly.cursor)
    (hfront : front = opened ++ before) :
    lx.InComment (1 + (breakEnds opened).length) front cookie rest := by
  subst hfront
  have hbefore := hpaired.of_append.unbroken fun hmem => hfeed (List.mem_append_left _ hmem)
  obtain ⟨blanks, front, hblanks, rfl, hfirst⟩ := h
  have hfront := (unbroken_cons.1 (unbroken_append.1 hbefore).2).2
  exact hturn.inComment hly hplaced rfl hblanks hfront hfirst.declaration.unbroken

/-- Where no carriage return stands by itself, the cookie stands in a comment of the lexer. -/
theorem FindsCookie.inComment (h : FindsCookie s.text name before cookie after)
    (hpaired : ReturnsPaired before) (asyncAlways : Bool) :
    ∃ line, (line = 1 ∨ line = 2) ∧
      (Lexer.ofSource asyncAlways s).InComment line before cookie after := by
  obtain ⟨htext, behind, rest, rfl, -, hnames⟩ := h
  have hstart : (Lexer.ofSource asyncAlways s).TakesTurn (Lexer.ofSource asyncAlways s) :=
    Lexer.takesTurn_start (fun e he => by cases he) rfl
  have hline := Lexer.atLine_ofSource asyncAlways s
  have hplaced : Cursor.Placed s.text [] (Lexer.ofSource asyncAlways s).cursor :=
    Cursor.placed_start s.text
  rw [htext] at hplaced
  cases hnames with
  | first hfeed hdeclares =>
    exact ⟨1, Or.inl rfl, hdeclares.inComment hfeed hpaired hstart hline hplaced rfl⟩
  | @second line before _ _ hlineFeed hidle hnone hfeed hdeclares =>
    have hrest : (Lexer.ofSource asyncAlways s).cursor.rest =
        line ++ '\n' :: (before ++ (cookie ++ (behind ++ rest))) := by
      refine hplaced.text_eq.symm.trans ?_
      rw [List.append_assoc, List.cons_append]
    obtain ⟨lx, hturn, hlx, hcrosses, hone⟩ :=
      hidle.nextLine hlineFeed hpaired hstart hline hrest
    have hsecond : 1 + (breakEnds (line ++ ['\n'])).length = 2 := by rw [hone]
    exact ⟨_, Or.inr hsecond, hdeclares.inComment hfeed hpaired hturn hlx
      (hplaced.crosses hcrosses) (List.append_cons ..)⟩

/-- The bytes of an ASCII text are searched as the text is. -/
theorem cookie?_eq_some_iff_findsCookie (hascii : ∀ b ∈ bytes, b.toNat < 128) :
    cookie? bytes = some (String.ofList name) ↔
      ∃ before cookie after, FindsCookie (bytes.map Codec.charOfByte) name before cookie after := by
  rw [cookie?_eq_some_iff, String.toList_ofList]
  constructor
  · rintro ⟨searched, rest, before, cookie, line, rfl, hrest, hsearched, hnames, -⟩
    refine ⟨before, cookie, line ++ rest.map Codec.charOfByte, ?_, line, _, rfl, ?_, hnames⟩
    · rw [List.map_append, hsearched, List.append_assoc, List.append_assoc]
    · cases rest with
      | nil => exact fun c hc => by cases hc
      | cons b rest => exact forall_mem_head?_cons.2 (charOfByte_eq_newline_iff.2 (hrest b rfl))
  · rintro ⟨before, cookie, _, htext, line, behind, rfl, hbehind, hnames⟩
    rw [← List.append_assoc cookie, ← List.append_assoc before] at htext
    obtain ⟨searched, rest, rfl, hsearched, rfl⟩ := List.map_eq_append_iff.1 htext
    refine ⟨searched, rest, before, cookie, line, rfl, ?_, hsearched, hnames, ?_⟩
    · cases rest with
      | nil => exact fun b hb => by cases hb
      | cons b rest =>
        exact forall_mem_head?_cons.2 (charOfByte_eq_newline_iff.1 (hbehind _ rfl))
    · rw [decode_of_lt fun b hb => hascii b (List.mem_append_left _ hb)]
      rfl

/-- An ASCII text is read as it is, whatever its cookie names. -/
theorem decode_of_ascii (hascii : ∀ b ∈ bytes, b.toNat < 128)
    (h : decode .cookie none bytes = .ok s) :
    s = ⟨bytes.map Codec.charOfByte, (cookie? bytes).map canonicalName⟩ := by
  have hmark : cutMark bytes = (bytes, false) :=
    cutMark_of_head fun b hb => hascii b (List.mem_of_mem_head? hb)
  rw [decode_cookie_of_unmarked (read_of_decode h).1 hmark] at h
  obtain ⟨codec, -, h⟩ := bind_eq_ok.1 h
  obtain ⟨text, htext, h⟩ := bind_eq_ok.1 h
  have hread := read_of_readBody htext
  cases codec with
  | utf8 =>
    obtain rfl := Except.ok.inj ((decode_of_lt hascii).symm.trans hread)
    exact (Except.ok.inj h).symm
  | latin1 =>
    obtain rfl := Except.ok.inj hread
    exact (Except.ok.inj h).symm
  | ascii =>
    unfold Codec.read at hread
    dsimp only at hread
    split at hread
    · cases hread
    · obtain rfl := Except.ok.inj hread
      exact (Except.ok.inj h).symm

/-- An encoding that an ASCII source reports is named by a cookie. The cookie stands in a comment
that the lexer reads on line 1 or 2, if every carriage return before it belongs to a line break
of two characters. -/
theorem decode_inComment {encoding : String} (hascii : ∀ b ∈ bytes, b.toNat < 128)
    (h : decode .cookie none bytes = .ok s) (hencoding : s.encoding? = some encoding) :
    (∃ name before cookie after, FindsCookie s.text name before cookie after) ∧
      ∀ name before cookie after, FindsCookie s.text name before cookie after →
        canonicalName (String.ofList name) = encoding ∧
          (ReturnsPaired before → ∀ asyncAlways, ∃ line, (line = 1 ∨ line = 2) ∧
            (Lexer.ofSource asyncAlways s).InComment line before cookie after) := by
  have hs := decode_of_ascii hascii h
  have htext : s.text = bytes.map Codec.charOfByte := by rw [hs]
  have hcookie : (cookie? bytes).map canonicalName = some encoding := by rw [← hencoding, hs]
  constructor
  · obtain ⟨name, hname, -⟩ := Option.map_eq_some_iff.1 hcookie
    rw [htext]
    refine ⟨name.toList, (cookie?_eq_some_iff_findsCookie hascii).1 ?_⟩
    rw [hname, String.ofList_toList]
  · intro name before cookie after hfinds
    refine ⟨?_, fun hpaired asyncAlways => hfinds.inComment hpaired asyncAlways⟩
    rw [htext] at hfinds
    rw [(cookie?_eq_some_iff_findsCookie hascii).2 ⟨before, cookie, after, hfinds⟩] at hcookie
    exact Option.some.inj hcookie

/-- A blank line that ends in a carriage return and a line feed, and a comment with a cookie. -/
theorem decode_inComment_second :
    decode .cookie none (Text.encode "\r\n# coding: latin-1".toList) =
        .ok ⟨"\r\n# coding: latin-1".toList, some "iso-8859-1"⟩ ∧
      FindsCookie "\r\n# coding: latin-1".toList "latin-1".toList ['\r', '\n', '#', ' ']
        "coding: latin-1".toList [] ∧
      ∃ line, (line = 1 ∨ line = 2) ∧
        (Lexer.ofSource false ⟨"\r\n# coding: latin-1".toList, some "iso-8859-1"⟩).InComment line
          ['\r', '\n', '#', ' '] "coding: latin-1".toList [] := by
  have hascii : ∀ b ∈ Text.encode "\r\n# coding: latin-1".toList, b.toNat < 128 := by decide +kernel
  have hdecode : decode .cookie none (Text.encode "\r\n# coding: latin-1".toList) =
      .ok ⟨"\r\n# coding: latin-1".toList, some "iso-8859-1"⟩ := by decide +kernel
  have hend : ∀ c ∈ ([] : List Char).head?, c = '\n' := fun c hc => by cases hc
  have hnone : cookieOfLine? ['\r'] = none := by decide
  have hfinds : FindsCookie "\r\n# coding: latin-1".toList "latin-1".toList ['\r', '\n', '#', ' ']
      "coding: latin-1".toList [] := by
    refine ⟨by decide +kernel, [], [], rfl, hend, ?_⟩
    have hidle : IsIdle ['\r'] :=
      ⟨[], ['\r'], List.forall_mem_nil _, rfl, forall_mem_head?_cons.2 (Or.inr rfl)⟩
    exact .second (by decide) hidle (cookieOfLine?_eq_none_iff.1 hnone) (by decide +kernel)
      ⟨[], [' '], List.forall_mem_nil _, rfl, declaresFirst_latin1 (by decide)⟩
  have hpaired : ReturnsPaired ['\r', '\n', '#', ' '] := by
    rintro (_ | ⟨c, front⟩) back hback
    · obtain ⟨-, rfl⟩ := List.cons.inj hback
      rfl
    · have hmem : '\r' ∈ ['\n', '#', ' '] := by
        rw [(List.cons.inj hback).2]
        exact List.mem_append_right _ List.mem_cons_self
      exact absurd hmem (by decide)
  exact ⟨hdecode, hfinds, ((decode_inComment hascii hdecode rfl).2 _ _ _ _ hfinds).2 hpaired false⟩

/-- A carriage return by itself ends a line for the lexer, and not for the search. What stands
behind it is part of a comment for the search, and a string literal for the lexer. -/
theorem decode_not_inComment :
    decode .cookie none (Text.encode "#\r'coding:l1'".toList) =
        .ok ⟨"#\r'coding:l1'".toList, some "l1"⟩ ∧
      FindsCookie "#\r'coding:l1'".toList "l1".toList ['#', '\r', '\''] "coding:l1".toList ['\''] ∧
      (Lexer.ofSource false ⟨"#\r'coding:l1'".toList, some "l1"⟩).tokens.1 =
        .ok [⟨.literal, "'coding:l1'", 2, some 0⟩, ⟨.endMarker, "", 2, none⟩] ∧
      ∀ line, ¬(Lexer.ofSource false ⟨"#\r'coding:l1'".toList, some "l1"⟩).InComment line
        ['#', '\r', '\''] "coding:l1".toList ['\''] := by
  have hend : ∀ c ∈ ([] : List Char).head?, c = '\n' := fun c hc => by cases hc
  have hdeclaration : Declaration "l1".toList "coding:l1".toList :=
    ⟨':', [], Or.inl rfl, List.forall_mem_nil _, by decide, List.all_eq_true.1 (by decide), rfl⟩
  have hfirst : DeclaresFirst "l1".toList ['\r', '\''] "coding:l1".toList ['\''] :=
    declaresFirst_of_not_mem hdeclaration (forall_mem_head?_cons.2 (by decide)) (by decide)
  refine ⟨by decide +kernel, ⟨by decide +kernel, ['\''], [], rfl, hend, ?_⟩, by decide +kernel, ?_⟩
  · exact .first (by decide +kernel) ⟨[], _, List.forall_mem_nil _, rfl, hfirst⟩
  · rintro line ⟨opened, front, tail, rest, ly, cur, hbefore, -, -, -, -, hreads⟩
    have hreturn : '\r' ∈ front := by
      cases opened with
      | nil =>
        rw [← (List.cons.inj hbefore).2]
        exact List.mem_cons_self
      | cons c opened =>
        have hhash : '#' ∈ ['\r', '\''] := by
          rw [(List.cons.inj hbefore).2]
          exact List.mem_append_right _ List.mem_cons_self
        exact absurd hhash (by decide)
    have hbreak := hreads.comment.unbroken '\r'
      (List.mem_cons_of_mem _ (List.mem_append_left _ hreturn))
    cases hbreak

end Offside.Source
