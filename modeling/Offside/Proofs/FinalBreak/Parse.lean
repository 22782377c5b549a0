import Offside.Proofs.FinalBreak.Decoding
import Offside.Proofs.FinalBreak.Run
import Offside.Proofs.Parse.Attempt
import Offside.Proofs.Parse.Finish

/-!
Parses of two texts that differ in a final line feed.
-/

namespace Offside

namespace Parse

open Grammar Pushdown Run

variable {g : Grammar} {ends : List Symbol} {ts : List Token} {options : Options}
  {filename? : Option String} {s : Source} {tree : Node}

theorem opening_endLine (options : Options) (s : Source) (automaton : Pushdown)
    (pragmas : PragmaBuffer) :
    opening options s.endLine automaton pragmas = (opening options s automaton pragmas).endLine :=
  rfl

/-- A source that gives a tree with a final line feed gives one without it, with the same tokens
but for newlines, unless the input breaks off or ends in a comment inside a block. -/
theorem attempt?_of_endLine (hg : g.Lawful) (he : g.LineEnds .fileInput ends)
    (hflags : options.flags.dontImplyDedent = false)
    (hcomplete : (Lexer.ofSource options.flags.asyncAlways s).drain.2.1 ≠ some .endOfFile)
    (hclosed : ¬((Lexer.ofSource options.flags.asyncAlways s).drain.2.2.blankLine = true ∧
      0 < (Lexer.ofSource options.flags.asyncAlways s).drain.2.2.indents.depth))
    {o' : Outcome Lexer Pushdown} {tree' : Node}
    (h : attempt? g .file options filename? s.endLine = some o') (ho : o'.result = .ok tree') :
    ∃ o tree, attempt? g .file options filename? s = some o ∧ o.result = .ok tree ∧
      (∃ last ∈ tree.content.lastChild?, last.isToken .endMarker = true) ∧
      dropNewlines tree.spellings = dropNewlines tree'.spellings := by
  obtain ⟨automaton, pragmas, tree₀', r', hstart, hpragmas, hgives', hfinish', _⟩ :=
    attempt?_eq_ok h ho
  rw [opening_endLine] at hgives'
  have hreading := reading_opening hstart options s pragmas
  obtain ⟨ts', hsound'⟩ := sound_of_gives hg hgives' hreading
  have hend := endMarker_of_finish hsound' hfinish'
  have hfresh : automaton.started = false := started_start? hstart
  have hendable : Endable g .fileInput [] (opening options s automaton pragmas) :=
    { reading := hreading
      positive := Indents.positive_empty
      fresh := fun _ => ⟨rfl, hfresh, rfl⟩
      complete := hcomplete
      closed := hclosed }
  obtain ⟨tree₀, r, hgives, ⟨us, us', htokens⟩, hsame, _⟩ :=
    hendable.gives hg he hflags hgives' hend
  rw [htokens.sound'.tokens, ← htokens.last] at hend
  obtain ⟨tree, hfinish, hlast, hevery, _⟩ :=
    finish_of_sound hg he htokens.sound hend r.source r.pragmas
  have hevery' := everyToken_of_finish hg he htokens.sound' hfinish'
  obtain ⟨o, hattempt, ho⟩ := attempt?_of_gives hg he hstart hpragmas hgives hfinish
  refine ⟨o, tree, hattempt, ho, hlast, ?_⟩
  have hsame' : dropNewlines (us.map Token.spelling) = dropNewlines (us'.map Token.spelling) :=
    htokens.spelling
  rw [Node.spellings, Node.spellings, hevery, hevery', hsame, List.map_append, List.map_append,
    dropNewlines_append, dropNewlines_append, hsame']

/-- A text that gives a tree with a final line feed gives one without it, and the tree ends in the
end marker and has the same tokens, newlines apart. The text must not break off after a backslash,
and must not end in a comment that stands alone on its line inside a block. -/
theorem text_without_final_break {t : List Char} {tree' : Node}
    (hcomplete : ∀ s, Source.ofText .cookie t = .ok s →
      (Lexer.ofSource false s).tokens.1 ≠ .error .endOfFile)
    (hclosed : ∀ s, Source.ofText .cookie t = .ok s →
      ¬((Lexer.ofSource false s).tokens.2.blankLine = true ∧
        0 < (Lexer.ofSource false s).tokens.2.indents.depth))
    (h : (text .file (Options.ofFlags Flags.unset) filename? (t ++ ['\n'])).1 = .ok tree') :
    ∃ tree, (text .file (Options.ofFlags Flags.unset) filename? t).1 = .ok tree ∧
      (∃ last ∈ tree.content.lastChild?, last.isToken .endMarker = true) ∧
      dropNewlines tree.spellings = dropNewlines tree'.spellings := by
  rw [text, Text.encode_concat] at h
  obtain ⟨s', hs', h⟩ := bytes_eq_ok h
  obtain ⟨s, hs, rfl⟩ := Source.decode_of_concat hs'
  obtain ⟨g, o', hgrammar, ho', htree'⟩ := source_eq_ok h
  obtain ⟨g', hg', hchecked⟩ := Reference.exists_checked
  obtain rfl : g' = g := Except.ok.inj (hg'.symm.trans hgrammar)
  have hcomplete' := hcomplete s hs
  have hclosed' := hclosed s hs
  rw [ne_eq, Lexer.tokens_eq_error_iff] at hcomplete'
  rw [Lexer.tokens_snd] at hclosed'
  obtain ⟨o, tree, ho, htree, hlast, hsame⟩ := attempt?_of_endLine (Reference.lawful hg')
    hchecked.lineEnds rfl hcomplete' hclosed' ho' htree'
  refine ⟨tree, ?_, hlast, hsame⟩
  have hdecode : Source.decode (Options.ofFlags Flags.unset).flags.decodeMode none (Text.encode t) =
    .ok s := hs
  rw [text_of_decode hdecode, source, hg', sourceBy_of_attempt? ho]
  exact htree

/-- A block that the end of the text closes. -/
theorem text_without_final_break_block :
    ∃ tree' tree, (text .file (Options.ofFlags Flags.unset) none
        ['i', 'f', ' ', 'x', ':', '\n', ' ', 'y', '\n']).1 = .ok tree' ∧
      (text .file (Options.ofFlags Flags.unset) none
        ['i', 'f', ' ', 'x', ':', '\n', ' ', 'y']).1 = .ok tree ∧
      (∃ last ∈ tree.content.lastChild?, last.isToken .endMarker = true) ∧
      dropNewlines tree.spellings = dropNewlines tree'.spellings := by
  have hread : Source.ofText .cookie ['i', 'f', ' ', 'x', ':', '\n', ' ', 'y'] =
      .ok ⟨['i', 'f', ' ', 'x', ':', '\n', ' ', 'y'], none⟩ := by decide +kernel
  obtain ⟨tree', h⟩ := text_of_trial
    (t := ⟨.file, ['i', 'f', ' ', 'x', ':', '\n', ' ', 'y', '\n'], some []⟩)
    List.mem_cons_self rfl (by decide +kernel)
  refine ⟨tree', (text_without_final_break (t := ['i', 'f', ' ', 'x', ':', '\n', ' ', 'y'])
    ?_ ?_ h).imp fun _ hsame => ⟨h, hsame⟩⟩
  · intro s hs
    obtain rfl := Except.ok.inj (hread.symm.trans hs)
    decide +kernel
  · intro s hs
    obtain rfl := Except.ok.inj (hread.symm.trans hs)
    decide +kernel

/-- A text that breaks off after a backslash gives a tree only with one more line feed. -/
theorem text_broken_off :
    ∃ tree', (text .file (Options.ofFlags Flags.unset) none ['x', '\\', '\n', '\n']).1 = .ok tree' ∧
      ¬∃ tree, (text .file (Options.ofFlags Flags.unset) none ['x', '\\', '\n']).1 = .ok tree := by
  obtain ⟨tree', h⟩ := text_of_trial (t := ⟨.file, ['x', '\\', '\n', '\n'], some []⟩)
    (by decide) rfl (by decide +kernel)
  refine ⟨tree', h, ?_⟩
  rintro ⟨tree, htree⟩
  have hfails := isOk_text_of_trial (t := ⟨.file, ['x', '\\', '\n'], none⟩) (by decide)
    (by decide +kernel)
  rw [htree] at hfails
  cases hfails

end Parse
end Offside
