import Offside.Proofs.FinalBreak.Decoding
import Offside.Proofs.Source.Declarations

/-!
When a cookie is honoured. The search reads the lines up to the cookie as UTF-8 before it knows
what they are written in, and that is its only condition beyond the text of the cookie itself: a
source with a cookie that names Latin-1 is read in Latin-1 exactly if these lines are UTF-8.
-/

namespace Offside.Source

open Text

variable {line rest more searched : List UInt8} {name before cookie after : List Char}

theorem charOfByte_eq_newline_iff {b : UInt8} : Codec.charOfByte b = '\n' ↔ b = 10 := by
  constructor
  · intro h
    have htoNat := toNat_charOfByte b
    rw [h] at htoNat
    exact UInt8.toNat_inj.1 htoNat.symm
  · rintro rfl
    rfl

theorem newline_mem_map_iff : '\n' ∈ line.map Codec.charOfByte ↔ (10 : UInt8) ∈ line := by
  rw [List.mem_map]
  constructor
  · rintro ⟨b, hb, h⟩
    rwa [← charOfByte_eq_newline_iff.1 h]
  · exact fun h => ⟨10, h, rfl⟩

theorem dropWhile_of_feed_not_mem (h : (10 : UInt8) ∉ line) : line.dropWhile (· != 10) = [] := by
  rw [List.dropWhile_eq_nil_iff]
  intro b hb
  rw [bne_iff_ne]
  rintro rfl
  exact h hb

theorem takeWhile_of_feed_not_mem (h : (10 : UInt8) ∉ line) : line.takeWhile (· != 10) = line := by
  have := List.takeWhile_append_dropWhile (p := (· != 10)) (l := line)
  rwa [dropWhile_of_feed_not_mem h, List.append_nil] at this

theorem cutLine_feed (h : (10 : UInt8) ∉ line) (more : List UInt8) :
    cutLine (line ++ 10 :: more) = (line ++ [10], more) := by
  rw [cutLine, dropWhile_append_cons (by decide), takeWhile_append_cons (by decide),
    dropWhile_of_feed_not_mem h, takeWhile_of_feed_not_mem h]
  rfl

theorem cutLine_last (h : (10 : UInt8) ∉ line) : cutLine line = (line, []) := by
  rw [cutLine, dropWhile_of_feed_not_mem h]

theorem cookieInLines?_nil (n : Nat) : cookieInLines? n [] = none := by
  have hdecode : Text.decode [] = .ok [] := by
    rw [Text.decode, Text.decodeFrom]
    rfl
  induction n with
  | zero => rfl
  | succ n ih =>
    rw [cookieInLines?, cutLine_last List.not_mem_nil]
    simp only [hdecode, ih, ite_self]
    rfl

/-- One line of the search. The line has to be UTF-8; what it says is said by its bytes. -/
theorem cookieInLines?_line (hline : (10 : UInt8) ∉ line) (hrest : ∀ b ∈ rest.head?, b = 10)
    (n : Nat) :
    cookieInLines? (n + 1) (line ++ rest) =
      if (Text.decode line).isOk then
        (cookieOfLine? (line.map Codec.charOfByte)).or
          (if holdsNoCode (line.map Codec.charOfByte) then cookieInLines? n rest.tail else none)
      else none := by
  rw [cookieInLines?]
  cases rest with
  | nil =>
    rw [List.append_nil, cutLine_last hline]
    cases hdecode : Text.decode line with
    | error i =>
      simp only [hdecode]
      rfl
    | ok text =>
      rw [map_of_decode hdecode, cookieOfLine?_octets, holdsNoCode_octets]
      simp only [hdecode]
      cases cookieOfLine? text <;> rfl
  | cons b more =>
    obtain rfl : b = 10 := hrest b rfl
    rw [cutLine_feed hline]
    simp only [Text.decode_concat]
    cases hdecode : Text.decode line with
    | error i => rfl
    | ok text =>
      rw [map_of_decode hdecode, cookieOfLine?_octets, holdsNoCode_octets]
      simp only [Except.map, cookieOfLine?_concat, holdsNoCode_concat]
      cases cookieOfLine? text <;> rfl

theorem feed_not_mem_of_map {text : List Char} (h : line.map Codec.charOfByte = text)
    (hfeed : '\n' ∉ text) : (10 : UInt8) ∉ line := by
  subst h
  rwa [newline_mem_map_iff] at hfeed

/-- A line with a cookie ends the search, if the line is UTF-8. -/
theorem cookieInLines?_of_declares (hfeed : '\n' ∉ before ++ (cookie ++ after))
    (hdeclares : DeclaresIn name before cookie after)
    (hline : line.map Codec.charOfByte = before ++ (cookie ++ after))
    (hrest : ∀ b ∈ rest.head?, b = 10) (n : Nat) :
    cookieInLines? (n + 1) (line ++ rest) =
      if (Text.decode line).isOk then some name else none := by
  have hsome := cookieOfLine?_eq_some_iff.2 ⟨before, cookie, after, rfl, hdeclares⟩
  rw [cookieInLines?_line (feed_not_mem_of_map hline hfeed) hrest, hline, hsome, Option.some_or]

/-- A source with a cookie has the encoding that it names, if the lines up to it are UTF-8, and
none otherwise. -/
theorem cookie?_append (hnames : NamesEncoding name before cookie after)
    (hsearched : searched.map Codec.charOfByte = before ++ (cookie ++ after))
    (hrest : ∀ b ∈ rest.head?, b = 10) :
    cookie? (searched ++ rest) =
      if (Text.decode searched).isOk then some (String.ofList name) else none := by
  suffices h : cookieInLines? 2 (searched ++ rest) =
      if (Text.decode searched).isOk then some name else none by
    rw [cookie?, h]
    split <;> rfl
  cases hnames with
  | first hfeed hdeclares => exact cookieInLines?_of_declares hfeed hdeclares hsearched hrest 1
  | @second firstChars before _ _ hfirst hidle hnone hfeed hdeclares =>
    rw [List.append_assoc, List.cons_append] at hsearched
    obtain ⟨line, behind, rfl, hline, hbehind⟩ := List.map_eq_append_iff.1 hsearched
    obtain ⟨b, second, rfl, hb, hsecond⟩ := List.map_eq_cons_iff.1 hbehind
    obtain rfl := charOfByte_eq_newline_iff.1 hb
    have hno : cookieOfLine? firstChars = none := cookieOfLine?_eq_none_iff.2 hnone
    have hopen : holdsNoCode firstChars = true := (holdsNoCode_iff hfirst).2 hidle
    have hhead : ∀ b ∈ (10 :: (second ++ rest)).head?, b = (10 : UInt8) :=
      forall_mem_head?_cons.2 rfl
    rw [List.append_assoc, List.cons_append,
      cookieInLines?_line (feed_not_mem_of_map hline hfirst) hhead, hline, hno, Option.none_or,
      if_pos hopen, List.tail_cons, cookieInLines?_of_declares hfeed hdeclares hsecond hrest,
      isOk_decode_append_feed]
    cases (Text.decode line).isOk <;> rfl

/-- A source in which a cookie is found has one, in lines that are UTF-8. -/
theorem exists_of_cookieInLines? {bytes : List UInt8} {n : Nat}
    (h : cookieInLines? (n + 1) bytes = some name) :
    ∃ line rest, bytes = line ++ rest ∧ (10 : UInt8) ∉ line ∧ (∀ b ∈ rest.head?, b = 10) ∧
      (Text.decode line).isOk ∧
      ((cookieOfLine? (line.map Codec.charOfByte) = some name) ∨
        cookieOfLine? (line.map Codec.charOfByte) = none ∧
          holdsNoCode (line.map Codec.charOfByte) ∧ cookieInLines? n rest.tail = some name) := by
  have hfeed : (10 : UInt8) ∉ bytes.takeWhile (· != 10) := fun hmem =>
    absurd (List.mem_takeWhile_imp hmem) (by decide)
  have hrest : ∀ b ∈ (bytes.dropWhile (· != 10)).head?, b = (10 : UInt8) := by
    intro b hb
    have hnot := List.head?_dropWhile_not (· != 10) bytes
    rw [Option.mem_def.1 hb] at hnot
    simpa using hnot
  have hsplit := List.takeWhile_append_dropWhile (p := (· != 10)) (l := bytes)
  refine ⟨_, _, hsplit.symm, hfeed, hrest, ?_⟩
  rw [← hsplit, cookieInLines?_line hfeed hrest] at h
  split at h
  · next hok =>
    refine ⟨hok, ?_⟩
    rcases Option.or_eq_some_iff.1 h with hname | ⟨hnone, h⟩
    · exact Or.inl hname
    · split at h
      · next hopen => exact Or.inr ⟨hnone, hopen, h⟩
      · cases h
  · cases h

/-- What a source is searched for and what is found are the same. -/
theorem cookie?_eq_some_iff {bytes : List UInt8} {encoding : String} :
    cookie? bytes = some encoding ↔
      ∃ searched rest before cookie after, bytes = searched ++ rest ∧
        (∀ b ∈ rest.head?, b = 10) ∧ searched.map Codec.charOfByte = before ++ (cookie ++ after) ∧
        NamesEncoding encoding.toList before cookie after ∧ (Text.decode searched).isOk := by
  constructor
  · intro h
    obtain ⟨name, hname, rfl⟩ := Option.map_eq_some_iff.1 h
    rw [String.toList_ofList]
    obtain ⟨line, rest, rfl, hfeed, hrest, hok, hcookie | ⟨hnone, hopen, hsecond⟩⟩ :=
      exists_of_cookieInLines? hname
    · obtain ⟨before, cookie, after, hline, hdeclares⟩ := cookieOfLine?_eq_some_iff.1 hcookie
      refine ⟨line, rest, before, cookie, after, rfl, hrest, hline, .first ?_ hdeclares, hok⟩
      rwa [← hline, newline_mem_map_iff]
    · obtain ⟨line', rest', hrest', hfeed', hhead, hok', hcookie | ⟨-, -, hnever⟩⟩ :=
        exists_of_cookieInLines? hsecond
      · obtain ⟨before, cookie, after, hline', hdeclares⟩ := cookieOfLine?_eq_some_iff.1 hcookie
        cases rest with
        | nil =>
          rw [List.tail_nil, cookieInLines?_nil] at hsecond
          cases hsecond
        | cons b more =>
          obtain rfl : b = 10 := hrest b rfl
          obtain rfl : more = line' ++ rest' := hrest'
          have hchars : '\n' ∉ line.map Codec.charOfByte := by rwa [newline_mem_map_iff]
          refine ⟨line ++ 10 :: line', rest', line.map Codec.charOfByte ++ '\n' :: before, cookie,
            after, by rw [List.append_assoc, List.cons_append], hhead, ?_,
            .second hchars ((holdsNoCode_iff hchars).1 hopen) (cookieOfLine?_eq_none_iff.1 hnone) ?_
              hdeclares, ?_⟩
          · rw [List.map_append, List.map_cons, hline', List.append_assoc]
            rfl
          · rwa [← hline', newline_mem_map_iff]
          · rw [isOk_decode_append_feed, hok, hok']
            rfl
      · cases hnever
  · rintro ⟨searched, rest, before, cookie, after, rfl, hrest, hsearched, hnames, hok⟩
    rw [cookie?_append hnames hsearched hrest, if_pos hok, String.ofList_toList]

theorem cutMark_of_head {bytes : List UInt8} (h : ∀ b ∈ bytes.head?, b.toNat < 128) :
    cutMark bytes = (bytes, false) := by
  refine if_neg fun hmark => ?_
  obtain ⟨more, rfl⟩ := List.isPrefixOf_iff_prefix.1 hmark
  exact absurd (h 0xEF rfl) (by decide)

theorem head?_lt_of_layout {blanks : List Char} (hblanks : ∀ c ∈ blanks, isLayout c = true)
    {text : List Char} (htext : ∀ c ∈ text.head?, c.toNat < 128) :
    ∀ c ∈ (blanks ++ text).head?, c.toNat < 128 := by
  cases blanks with
  | nil => exact htext
  | cons b blanks =>
    exact forall_mem_head?_cons.2 (lt_of_isLayout (hblanks b List.mem_cons_self))

/-- A source with a cookie begins with an ASCII character. -/
theorem NamesEncoding.head?_lt (h : NamesEncoding name before cookie after) :
    ∀ c ∈ (before ++ (cookie ++ after)).head?, c.toNat < 128 := by
  cases h with
  | first hfeed hdeclares =>
    obtain ⟨blanks, front, hblanks, rfl, -⟩ := hdeclares
    rw [List.append_assoc]
    exact head?_lt_of_layout hblanks (forall_mem_head?_cons.2 (by decide))
  | second hline hidle =>
    obtain ⟨blanks, rest, hblanks, rfl, hrest⟩ := hidle
    rw [List.append_assoc, List.append_assoc]
    refine head?_lt_of_layout hblanks ?_
    cases rest with
    | nil => exact forall_mem_head?_cons.2 (by decide)
    | cons d rest =>
      intro c hc
      rcases hrest c hc with rfl | rfl
      all_goals decide

theorem cutMark_of_names (hnames : NamesEncoding name before cookie after)
    (hsearched : searched.map Codec.charOfByte = before ++ (cookie ++ after))
    (hrest : ∀ b ∈ rest.head?, b = 10) :
    cutMark (searched ++ rest) = (searched ++ rest, false) := by
  refine cutMark_of_head fun b hb => ?_
  cases searched with
  | nil =>
    rw [hrest b hb]
    decide
  | cons d searched =>
    obtain rfl : d = b := Option.some.inj hb
    have hlt := hnames.head?_lt
    rw [← hsearched] at hlt
    rw [← toNat_charOfByte]
    exact hlt _ rfl

/-- Without a mark, a source of admissible size is read as its cookie tells. -/
theorem decode_cookie_of_unmarked {bytes : List UInt8} (hsize : bytes.length ≤ maxPosition)
    (hmark : cutMark bytes = (bytes, false)) :
    decode .cookie none bytes = (do
      let codec ← codecOf ((cookie? bytes).map canonicalName) false
      let text ← readBody codec bytes 0
      pure ⟨text, (cookie? bytes).map canonicalName⟩) := by
  rw [decode, if_neg (Nat.not_lt.2 hsize), hmark]
  dsimp only
  rw [Nat.sub_self, Option.map_none]
  cases (cookie? bytes).map canonicalName <;> rfl

/-- A cookie that names Latin-1 is honoured exactly if the lines up to it are UTF-8, whatever
follows them: then every byte of the source is the character with its code point. -/
theorem decode_latin1_iff {searched rest : List UInt8} {before cookie after : List Char}
    (hnames : NamesEncoding "latin-1".toList before cookie after)
    (hsearched : searched.map Codec.charOfByte = before ++ (cookie ++ after))
    (hrest : ∀ b ∈ rest.head?, b = 10) :
    decode .cookie none (searched ++ rest) =
        .ok ⟨(searched ++ rest).map Codec.charOfByte, some "iso-8859-1"⟩ ↔
      (Text.decode searched).isOk ∧ (searched ++ rest).length ≤ maxPosition := by
  have hcookie := cookie?_append hnames hsearched hrest
  have hmark := cutMark_of_names hnames hsearched hrest
  by_cases hsize : (searched ++ rest).length ≤ maxPosition
  · rw [decode_cookie_of_unmarked hsize hmark, hcookie]
    by_cases hok : (Text.decode searched).isOk
    · refine iff_of_true ?_ ⟨hok, hsize⟩
      have hname : canonicalName (String.ofList "latin-1".toList) = "iso-8859-1" := by decide
      have hcodec : Codec.ofName? "iso-8859-1" = some .latin1 := by decide
      rw [if_pos hok, Option.map_some, hname]
      simp only [codecOf, hcodec]
      rfl
    · refine iff_of_false (fun h => ?_) fun h => hok h.1
      rw [if_neg hok, Option.map_none] at h
      obtain ⟨codec, -, h⟩ := bind_eq_ok.1 h
      obtain ⟨text, -, h⟩ := bind_eq_ok.1 h
      cases h
  · refine iff_of_false (fun h => ?_) fun h => hsize h.2
    rw [decode, if_pos (Nat.not_le.1 hsize)] at h
    cases h

theorem declaresFirst_latin1 {front : List Char} (h : 'c' ∉ front) :
    DeclaresFirst "latin-1".toList front "coding: latin-1".toList [] :=
  declaresFirst_of_not_mem ⟨':', [' '], Or.inl rfl,
      List.all_iff_forall_prop.1 (by decide), by decide, List.all_eq_true.1 (by decide), rfl⟩
    (fun c hc => by cases hc) h

theorem decode_latin1_plain :
    decode .cookie none (Text.encode "# coding: latin-1".toList ++ [0x0A, 0xE9]) =
      .ok ⟨"# coding: latin-1\né".toList, some "iso-8859-1"⟩ := by
  have hdeclares : DeclaresIn "latin-1".toList "# ".toList "coding: latin-1".toList [] :=
    ⟨[], [' '], List.forall_mem_nil _, rfl, declaresFirst_latin1 (by decide)⟩
  refine (decode_latin1_iff (.first (by decide) hdeclares) (by decide)
    (forall_mem_head?_cons.2 rfl)).2 ⟨?_, by decide⟩
  rw [decode_of_lt (List.all_iff_forall_prop.1 (by decide))]
  rfl

/-- A byte that is not UTF-8 in front of the cookie, in the same comment, hides it. -/
theorem decode_latin1_hidden :
    NamesEncoding "latin-1".toList "#é ".toList "coding: latin-1".toList [] ∧
      (0x23 :: 0xE9 :: Text.encode " coding: latin-1".toList).map Codec.charOfByte =
        "#é coding: latin-1".toList ∧
      decode .cookie none (0x23 :: 0xE9 :: Text.encode " coding: latin-1".toList) =
        .error (.invalidByte .utf8 0xE9 1) := by
  have hnames : NamesEncoding "latin-1".toList "#é ".toList "coding: latin-1".toList [] :=
    .first (by decide) ⟨[], ['é', ' '], List.forall_mem_nil _, rfl,
      declaresFirst_latin1 (by decide)⟩
  have hbytes : (0x23 :: 0xE9 :: Text.encode " coding: latin-1".toList).map Codec.charOfByte =
      "#é coding: latin-1".toList := by decide
  have hread : Text.decode (0x23 :: 0xE9 :: Text.encode " coding: latin-1".toList) = .error 1 := by
    rw [Text.decode, decodeFrom_of_some (c := '#') rfl,
      decodeFrom_of_none (List.cons_ne_nil _ _) rfl]
    rfl
  have hend : ∀ b ∈ ([] : List UInt8).head?, b = 10 := fun b hb => by cases hb
  have hcookie := cookie?_append hnames hbytes hend
  rw [List.append_nil, hread] at hcookie
  refine ⟨hnames, hbytes, ?_⟩
  rw [decode_cookie_of_unmarked (by decide) rfl, hcookie]
  have hbody : readBody .utf8 (0x23 :: 0xE9 :: Text.encode " coding: latin-1".toList) 0 =
      .error (.invalidByte .utf8 0xE9 1) := by
    rw [readBody, Codec.read, hread]
    rfl
  exact bind_eq_error.2 (Or.inr ⟨.utf8, rfl, bind_eq_error.2 (Or.inl hbody)⟩)

end Offside.Source
