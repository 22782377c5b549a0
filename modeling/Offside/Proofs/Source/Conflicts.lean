import Offside.Proofs.Source.Cookies

/-!
When an encoding that is declared is at odds with a cookie. A codec has spellings of two kinds: a
stem with any hyphenated tail, and the aliases. The spellings of the first kind have one canonical
spelling, so no two of them are at odds. An alias is its own canonical spelling, and is at odds
with every other spelling of its codec.
-/

namespace Offside.Source

/-- A name in lower case, with hyphens for underscores. -/
def foldName (name : String) : List Char := name.toList.map foldNameChar

namespace Codec

/-- What a spelling of a codec may begin with, in front of a hyphenated tail. -/
def stems : Codec → List String
  | .utf8 => ["utf-8"]
  | .latin1 => ["latin-1", "iso-8859-1", "iso-latin-1"]
  | .ascii => []

/-- The spellings of a codec that are no stem and admit no tail. -/
def aliases : Codec → List String
  | .utf8 => ["utf8"]
  | .latin1 => ["latin1", "l1", "iso8859-1", "8859", "cp819"]
  | .ascii => ["ascii", "us-ascii", "646"]

/-- A folded name is a stem of a codec, or a stem with a tail, as far as names are looked at. -/
def InFamily (codec : Codec) (name : List Char) : Prop :=
  ∃ stem ∈ codec.stems, inFamily stem (name.take familyLength) = true

/-- A name stands for a codec, in whichever spelling. -/
def Spells (codec : Codec) (name : String) : Prop :=
  codec.InFamily (foldName name) ∨ String.ofList (foldName name) ∈ codec.aliases

instance (codec : Codec) (name : List Char) : Decidable (codec.InFamily name) :=
  inferInstanceAs (Decidable (∃ stem ∈ codec.stems, inFamily stem (name.take familyLength) = true))

end Codec

open Codec Text

variable {codec : Codec} {name declared cookie : String} {declared? : Option String}
  {bytes : List UInt8}

theorem inFamily_iff {stem : String} {name : List Char} :
    inFamily stem name = true ↔ name = stem.toList ∨ stem.toList ++ ['-'] <+: name := by
  rw [inFamily, Bool.or_eq_true, beq_iff_eq, List.isPrefixOf_iff_prefix]

theorem stem_prefix {stem : String} {name : List Char} (h : inFamily stem name = true) :
    stem.toList <+: name := by
  rcases inFamily_iff.1 h with rfl | h
  · exact List.prefix_rfl
  · exact (List.prefix_append _ _).trans h

/-- No name stands in two families. -/
theorem inFamily_unique {other : Codec} {folded : List Char} (h : codec.InFamily folded)
    (hother : other.InFamily folded) : other = codec := by
  have hall : ∀ stem ∈ codec.stems, ∀ stem' ∈ other.stems,
      stem.toList.head? = stem'.toList.head? → other = codec := by
    cases codec
    all_goals cases other
    all_goals decide
  have hnil : ∀ stem ∈ codec.stems, ∀ stem' ∈ other.stems,
      stem.toList ≠ [] ∧ stem'.toList ≠ [] := by
    cases codec
    all_goals cases other
    all_goals decide
  obtain ⟨stem, hstem, hname⟩ := h
  obtain ⟨stem', hstem', hname'⟩ := hother
  obtain ⟨hne, hne'⟩ := hnil stem hstem stem' hstem'
  obtain ⟨tail, htail⟩ := stem_prefix hname
  obtain ⟨tail', htail'⟩ := stem_prefix hname'
  refine hall stem hstem stem' hstem' ?_
  rw [← List.head?_append_of_ne_nil _ hne, htail, ← htail', List.head?_append_of_ne_nil _ hne']

theorem inFamily_utf8_iff {folded : List Char} :
    utf8.InFamily folded ↔ inFamily "utf-8" (folded.take familyLength) = true := by
  simp [InFamily, stems]

theorem inFamily_latin1_iff {folded : List Char} :
    latin1.InFamily folded ↔
      (inFamily "latin-1" (folded.take familyLength) ||
        inFamily "iso-8859-1" (folded.take familyLength) ||
        inFamily "iso-latin-1" (folded.take familyLength)) = true := by
  simp [InFamily, stems, or_assoc]

/-- All names of a family have one canonical spelling. -/
theorem canonicalName_of_inFamily (h : codec.InFamily (foldName name)) :
    canonicalName name = codec.label := by
  cases codec with
  | utf8 => exact if_pos (inFamily_utf8_iff.1 h)
  | latin1 =>
    have hutf8 : ¬inFamily "utf-8" ((foldName name).take familyLength) = true := by
      intro hutf8
      cases inFamily_unique h (inFamily_utf8_iff.2 hutf8)
    exact (if_neg hutf8).trans (if_pos (inFamily_latin1_iff.1 h))
  | ascii =>
    obtain ⟨stem, hstem, -⟩ := h
    cases hstem

/-- A name outside the families is its own canonical spelling, up to case and hyphens. -/
theorem canonicalName_of_not_inFamily (h : ∀ codec : Codec, ¬codec.InFamily (foldName name)) :
    canonicalName name = String.ofList (foldName name) :=
  (if_neg (mt inFamily_utf8_iff.2 (h utf8))).trans (if_neg (mt inFamily_latin1_iff.2 (h latin1)))

theorem ofName?_eq_some_iff : ofName? name = some codec ↔ name ∈ codec.names := by
  constructor
  · intro h
    have hcontains : codec.names.contains name = true :=
      List.find?_some (p := fun c : Codec => c.names.contains name) h
    exact List.contains_iff_mem.1 hcontains
  · have hall : ∀ name ∈ codec.names, ofName? name = some codec := by
      cases codec
      all_goals decide
    exact hall name

theorem ofName?_label : ofName? codec.label = some codec := by
  cases codec
  all_goals decide

/-- The names of a codec are its aliases and some of its family. -/
theorem inFamily_of_mem_names {folded : List Char} (h : String.ofList folded ∈ codec.names) :
    codec.InFamily folded ∨ String.ofList folded ∈ codec.aliases := by
  have hall : ∀ name ∈ codec.names, codec.InFamily name.toList ∨ name ∈ codec.aliases := by
    cases codec
    all_goals decide
  have := hall _ h
  rwa [String.toList_ofList] at this

theorem aliases_subset_names : codec.aliases ⊆ codec.names := by
  cases codec
  all_goals decide

/-- An alias stands in no family. -/
theorem not_inFamily_of_mem_aliases {folded : List Char}
    (h : String.ofList folded ∈ codec.aliases) (other : Codec) : ¬other.InFamily folded := by
  have hall : ∀ name ∈ codec.aliases, ¬other.InFamily name.toList := by
    cases codec
    all_goals cases other
    all_goals decide
  have := hall _ h
  rwa [String.toList_ofList] at this

/-- The lookup behind the canonical spelling finds the codec that the name stands for. -/
theorem ofName?_canonicalName_iff :
    ofName? (canonicalName name) = some codec ↔ codec.Spells name := by
  by_cases hfamily : ∃ other : Codec, other.InFamily (foldName name)
  · obtain ⟨other, hother⟩ := hfamily
    rw [canonicalName_of_inFamily hother, ofName?_label, Option.some_inj]
    constructor
    · rintro rfl
      exact Or.inl hother
    · rintro (h | h)
      · exact inFamily_unique h hother
      · exact absurd hother (not_inFamily_of_mem_aliases h other)
  · rw [canonicalName_of_not_inFamily (not_exists.1 hfamily), ofName?_eq_some_iff]
    constructor
    · exact inFamily_of_mem_names
    · rintro (h | h)
      · exact absurd ⟨codec, h⟩ hfamily
      · exact aliases_subset_names h

theorem canonicalName_of_mem_aliases (h : String.ofList (foldName name) ∈ codec.aliases) :
    canonicalName name = String.ofList (foldName name) :=
  canonicalName_of_not_inFamily (not_inFamily_of_mem_aliases h)

/-- The canonical spelling of a family is no alias. -/
theorem canonicalName_ne_of_mem_aliases (hfamily : codec.InFamily (foldName declared))
    (halias : String.ofList (foldName cookie) ∈ codec.aliases) :
    canonicalName declared ≠ canonicalName cookie := by
  rw [canonicalName_of_inFamily hfamily, canonicalName_of_mem_aliases halias]
  intro heq
  rw [← heq] at halias
  cases codec with
  | utf8 => exact absurd halias (by decide)
  | latin1 => exact absurd halias (by decide)
  | ascii =>
    obtain ⟨stem, hstem, -⟩ := hfamily
    cases hstem

/-- Two spellings of one codec have one canonical spelling if both belong to its family, or if they
are told apart by case and underscores only. -/
theorem canonicalName_eq_iff (hdeclared : codec.Spells declared) (hcookie : codec.Spells cookie) :
    canonicalName declared = canonicalName cookie ↔
      codec.InFamily (foldName declared) ∧ codec.InFamily (foldName cookie) ∨
        foldName declared = foldName cookie := by
  rcases hdeclared with hdeclared | hdeclared
  · rcases hcookie with hcookie | hcookie
    · refine iff_of_true ?_ (Or.inl ⟨hdeclared, hcookie⟩)
      rw [canonicalName_of_inFamily hdeclared, canonicalName_of_inFamily hcookie]
    · refine iff_of_false (canonicalName_ne_of_mem_aliases hdeclared hcookie) ?_
      have hnot := not_inFamily_of_mem_aliases hcookie codec
      rintro (h | h)
      · exact hnot h.2
      · exact hnot (h ▸ hdeclared)
  · have hnot := not_inFamily_of_mem_aliases hdeclared codec
    rcases hcookie with hcookie | hcookie
    · refine iff_of_false (canonicalName_ne_of_mem_aliases hcookie hdeclared).symm ?_
      rintro (h | h)
      · exact hnot h.1
      · exact hnot (h ▸ hcookie)
    · rw [canonicalName_of_mem_aliases hdeclared, canonicalName_of_mem_aliases hcookie,
        String.ofList_inj]
      exact ⟨Or.inr, fun h => h.resolve_left fun h => hnot h.1⟩

theorem chooseEncoding_eq_conflict_iff {cookie? : Option String} {marked : Bool} {d c : String} :
    chooseEncoding declared? cookie? marked = .error (.conflict d c) ↔
      declared? = some d ∧ cookie? = some c ∧ d ≠ c := by
  cases declared? with
  | none => cases cookie? <;> simp [chooseEncoding]
  | some declared =>
    cases cookie? with
    | none => simp [chooseEncoding]
    | some cookie =>
      by_cases heq : declared = cookie
      · subst heq
        simp only [chooseEncoding, if_true, Option.some_inj]
        refine iff_of_false nofun ?_
        rintro ⟨rfl, rfl, hne⟩
        exact hne rfl
      · simp only [chooseEncoding, if_neg heq, Option.some_inj, Except.error.injEq,
          DecodeError.conflict.injEq]
        constructor
        · rintro ⟨rfl, rfl⟩
          exact ⟨rfl, rfl, heq⟩
        · rintro ⟨rfl, rfl, -⟩
          exact ⟨rfl, rfl⟩

/-- Only the choice of the encoding can end in a conflict. -/
theorem codecOf_ne_conflict {encoding? : Option String} {marked : Bool} {d c : String} :
    codecOf encoding? marked ≠ .error (.conflict d c) := by
  unfold codecOf
  split
  · nofun
  · split
    · nofun
    · split
      all_goals nofun

theorem readBody_ne_conflict {body : List UInt8} {base : Nat} {d c : String} :
    readBody codec body base ≠ .error (.conflict d c) := by
  unfold readBody
  split
  all_goals nofun

/-- A source is refused for a conflict exactly if the canonical spellings differ, whatever codecs
they stand for. -/
theorem decode_eq_conflict_iff {d c : String} :
    decode .cookie declared? bytes = .error (.conflict d c) ↔
      bytes.length ≤ maxPosition ∧ ∃ declared cookie, declared? = some declared ∧
        cookie? (cutMark bytes).1 = some cookie ∧ d = canonicalName declared ∧
        c = canonicalName cookie ∧ d ≠ c := by
  by_cases hsize : bytes.length ≤ maxPosition
  · rw [decode, if_neg (Nat.not_lt.2 hsize)]
    dsimp only
    constructor
    · intro h
      refine ⟨hsize, ?_⟩
      rcases bind_eq_error.1 h with h | ⟨encoding?, -, h⟩
      · obtain ⟨hdeclared, hcookie, hne⟩ := chooseEncoding_eq_conflict_iff.1 h
        obtain ⟨declared, rfl, rfl⟩ := Option.map_eq_some_iff.1 hdeclared
        obtain ⟨cookie, hcookie?, rfl⟩ := Option.map_eq_some_iff.1 hcookie
        exact ⟨declared, cookie, rfl, hcookie?, rfl, rfl, hne⟩
      · rcases bind_eq_error.1 h with h | ⟨codec, -, h⟩
        · exact absurd h codecOf_ne_conflict
        · rcases bind_eq_error.1 h with h | ⟨text, -, h⟩
          · exact absurd h readBody_ne_conflict
          · cases h
    · rintro ⟨-, declared, cookie, rfl, hcookie, rfl, rfl, hne⟩
      refine bind_eq_error.2 (Or.inl (chooseEncoding_eq_conflict_iff.2 ⟨rfl, ?_, hne⟩))
      rw [hcookie, Option.map_some]
  · refine iff_of_false (fun h => ?_) fun h => hsize h.1
    rw [decode, if_pos (Nat.not_le.1 hsize)] at h
    cases h

/-- A declared encoding is at odds with a cookie for the same codec exactly if the two spellings
differ in more than case and underscores, and one of them is an alias. -/
theorem decode_conflict_same_codec_iff :
    (∃ d c, decode .cookie declared? bytes = .error (.conflict d c) ∧
        ofName? d = some codec ∧ ofName? c = some codec) ↔
      bytes.length ≤ maxPosition ∧ ∃ declared cookie, declared? = some declared ∧
        cookie? (cutMark bytes).1 = some cookie ∧ codec.Spells declared ∧ codec.Spells cookie ∧
        foldName declared ≠ foldName cookie ∧
        ¬(codec.InFamily (foldName declared) ∧ codec.InFamily (foldName cookie)) := by
  constructor
  · rintro ⟨d, c, hdecode, hd, hc⟩
    obtain ⟨hsize, declared, cookie, hdeclared?, hcookie?, rfl, rfl, hne⟩ :=
      decode_eq_conflict_iff.1 hdecode
    rw [ofName?_canonicalName_iff] at hd hc
    rw [Ne, canonicalName_eq_iff hd hc, not_or] at hne
    exact ⟨hsize, declared, cookie, hdeclared?, hcookie?, hd, hc, hne.2, hne.1⟩
  · rintro ⟨hsize, declared, cookie, hdeclared?, hcookie?, hdeclared, hcookie, hfold, hfamily⟩
    have hne : canonicalName declared ≠ canonicalName cookie := by
      rw [Ne, canonicalName_eq_iff hdeclared hcookie, not_or]
      exact ⟨hfamily, hfold⟩
    exact ⟨canonicalName declared, canonicalName cookie,
      decode_eq_conflict_iff.2 ⟨hsize, declared, cookie, hdeclared?, hcookie?, rfl, rfl, hne⟩,
      ofName?_canonicalName_iff.2 hdeclared, ofName?_canonicalName_iff.2 hcookie⟩

/-- Two spellings of UTF-8, one declared and one in a cookie, are at odds. -/
theorem decode_conflict_utf8 :
    decode .cookie (some "utf8") (Text.encode "# coding: utf-8\n".toList) =
        .error (.conflict "utf8" "utf-8") ∧
      ofName? "utf8" = some utf8 ∧ ofName? "utf-8" = some utf8 := by
  have hdeclares : DeclaresIn "utf-8".toList "# ".toList "coding: utf-8".toList [] :=
    ⟨[], [' '], List.forall_mem_nil _, rfl, declaresFirst_of_not_mem
      ⟨':', [' '], Or.inl rfl, List.all_iff_forall_prop.1 (by decide), by decide,
        List.all_eq_true.1 (by decide), rfl⟩ nofun (by decide)⟩
  have hline : Text.decode (Text.encode "# coding: utf-8".toList) =
      .ok "# coding: utf-8".toList := by
    rw [decode_of_lt (List.all_iff_forall_prop.1 (by decide))]
    rfl
  have hcookie : cookie? (Text.encode "# coding: utf-8".toList ++ [0x0A]) = _ :=
    cookie?_append (.first (by decide) hdeclares) (by decide) (forall_mem_head?_cons.2 rfl)
  rw [hline] at hcookie
  exact ⟨decode_eq_conflict_iff.2 ⟨by decide, "utf8", "utf-8", rfl, hcookie, by decide, by decide,
    by decide⟩, by decide, by decide⟩

end Offside.Source
