import Offside.Proofs.Lexer.Encodings
import Offside.Proofs.Parse.Attempt
import Offside.Proofs.Parse.Finish
import Offside.Proofs.Source.Cookies

/-!
Parses that report an encoding. A run does the same over lexers that differ in the encoding they
report, so that it shows at the root of the tree alone, and no step looks at how the bytes of a
source were to be read. Bytes that say nothing of their encoding are read alike in both ways.
-/

namespace Offside

namespace Run

variable {α : Type} [Automaton α] (encoding? : Option String) (flags : Flags)

/-- A run over a source that reports another encoding. -/
def under (r : Run Lexer α) : Run Lexer α := { r with source := r.source.under encoding? }

theorem receive_under (x : Lexeme) (kind : Kind) (r : Run Lexer α) :
    receive x kind (r.under encoding?) =
      ((receive x kind r).1, (receive x kind r).2.under encoding?) := by
  rw [under, receive_source, under, (source_receive x kind r).1]

theorem closeBlocks_under (lx : Lexer) :
    closeBlocks flags (lx.under encoding?) = (closeBlocks flags lx).under encoding? := by
  by_cases hopen : 0 < lx.indents.depth ∧ flags.dontImplyDedent = false
  · have hopen' : 0 < (lx.under encoding?).indents.depth ∧ flags.dontImplyDedent = false := hopen
    rw [closeBlocks_of_open hopen.2 hopen.1, closeBlocks_of_open hopen.2 hopen'.1]
    rfl
  · have hopen' : ¬(0 < (lx.under encoding?).indents.depth ∧ flags.dontImplyDedent = false) := hopen
    rw [closeBlocks_of_kept hopen, closeBlocks_of_kept hopen']

/-- A step is the same whatever encoding is reported. -/
theorem step_under (r : Run Lexer α) :
    step flags (r.under encoding?) = ((r.step flags).1, (r.step flags).2.under encoding?) := by
  have hsource := Lexer.next_under encoding? r.source
  cases hnext : r.source.next with
  | mk answer lx =>
    rw [hnext] at hsource
    cases answer with
    | error e =>
      rw [step_of_error (r := r) hnext, step_of_error (r := r.under encoding?) hsource]
      rfl
    | ok x =>
      by_cases hx : x.kind = .endMarker
      · cases hstarted : r.started with
        | false =>
          rw [step_of_fresh flags (r := r) hnext hx hstarted,
            step_of_fresh flags (r := r.under encoding?) hsource hx hstarted]
          exact receive_under encoding? x .endMarker { r with source := lx, started := true }
        | true =>
          rw [step_of_end flags (r := r) hnext hx hstarted,
            step_of_end flags (r := r.under encoding?) hsource hx hstarted, closeBlocks_under]
          exact receive_under encoding? x .newline
            { r with source := closeBlocks flags lx, started := false }
      · rw [step_of_token flags (r := r) hnext hx,
          step_of_token flags (r := r.under encoding?) hsource hx]
        exact receive_under encoding? x x.kind { r with source := lx, started := true }

theorem loop_under (fuel : Nat) (r : Run Lexer α) :
    loop flags fuel (r.under encoding?) =
      (loop flags fuel r).map fun (result, r') => (result, r'.under encoding?) := by
  induction fuel generalizing r with
  | zero => rfl
  | succ fuel ih =>
    rw [loop, loop, step_under]
    cases r.step flags with
    | mk progress r' =>
      cases progress with
      | more => exact ih r'
      | accepted tree => rfl
      | failed f => rfl

/-- How the bytes were to be read is no matter of a run. -/
theorem loop_ignoreCookie {σ : Type} [TokenSource σ] (raw : Bool) (fuel : Nat) (r : Run σ α) :
    loop { flags with ignoreCookie := raw } fuel r = loop flags fuel r := by
  induction fuel generalizing r with
  | zero => rfl
  | succ fuel ih =>
    have hstep : step { flags with ignoreCookie := raw } r = step flags r := rfl
    rw [loop, loop, hstep]
    split
    · exact ih _
    · rfl
    · rfl

end Run

/-- The options with another way to read the bytes. -/
def Options.readingRaw (raw : Bool) (options : Options) : Options :=
  { options with flags := { options.flags with ignoreCookie := raw } }

namespace Parse

variable {α : Type} [Automaton α] (encoding? : Option String) (fuel : Nat) (start : StartRule)
  (options : Options) (filename? : Option String)

/-- Whatever else is done with a tree, its encoding is named last. -/
theorem finish_eq {σ : Type} [TokenSource σ] (source : σ) (pragmas : PragmaBuffer) (tree : Node) :
    finish start source pragmas tree =
      (if tree.isSymbol .fileInput then attachPragmas pragmas.toList tree else .ok tree) >>=
        fun tree =>
          if start = .single ∧ holdsCode false (TokenSource.remaining source) = true then
            .error (.ofKind .manyStatements)
          else .ok (nameEncoding (TokenSource.encoding? source) tree) := by
  unfold finish
  cases TokenSource.encoding? source
  all_goals
    by_cases hmodule : tree.isSymbol .fileInput = true
    · rw [if_pos hmodule, if_pos hmodule]
      rfl
    · rw [if_neg hmodule, if_neg hmodule]
      rfl

theorem finish_under (lx : Lexer) (pragmas : PragmaBuffer) (tree : Node) :
    finish start (lx.under encoding?) pragmas tree =
      (finish start (lx.under none) pragmas tree).map (nameEncoding encoding?) := by
  rw [finish_eq, finish_eq]
  cases (if tree.isSymbol .fileInput then attachPragmas pragmas.toList tree else .ok tree) with
  | error f => rfl
  | ok tree =>
    have hsame :
        TokenSource.remaining (lx.under encoding?) = TokenSource.remaining (lx.under none) :=
      rfl
    dsimp only [Bind.bind, Except.bind]
    rw [hsame]
    split <;> rfl

/-- A failure is told alike, whatever encoding is reported. -/
theorem conclude_under (result : Except Failure Node) (lx : Lexer) (pragmas : PragmaBuffer) :
    (result >>= finish start (lx.under encoding?) pragmas).mapError
        (report (lx.under encoding?) filename?) =
      ((result >>= finish start (lx.under none) pragmas).mapError
        (report (lx.under none) filename?)).map (nameEncoding encoding?) := by
  have hreport : report (lx.under encoding?) filename? = report (lx.under none) filename? := rfl
  cases result with
  | error f => rfl
  | ok tree =>
    show (finish start (lx.under encoding?) pragmas tree).mapError _ =
      ((finish start (lx.under none) pragmas tree).mapError _).map _
    rw [finish_under, hreport]
    cases finish start (lx.under none) pragmas tree <;> rfl

/-- The encoding that a source reports is named at the root, and makes no other difference. -/
theorem tokens_under (lx : Lexer) (automaton : α) :
    tokens fuel start options filename? (lx.under encoding?) automaton =
      (tokens fuel start options filename? (lx.under none) automaton).map fun o =>
        { o with
          result := o.result.map (nameEncoding encoding?)
          source := o.source.under encoding? } := by
  unfold tokens
  cases PragmaBuffer.ofCapacity options.pragmaCapacity options.pragmaLimit? with
  | error e => rfl
  | ok pragmas =>
    have hrun := fun e? => Run.loop_under e? options.flags fuel
      ⟨lx, Automaton.setFuture options.future automaton, pragmas, false⟩
    have hopening : ∀ e?, (⟨lx.under e?, Automaton.setFuture options.future automaton, pragmas,
        false⟩ : Run Lexer α) =
        Run.under e? ⟨lx, Automaton.setFuture options.future automaton, pragmas, false⟩ :=
      fun _ => rfl
    dsimp only
    rw [hopening, hopening, hrun, hrun, Option.map_map, Option.map_map, Option.map_map]
    congr 1
    funext ⟨result, r⟩
    exact congrArg (fun result => Outcome.mk result
        { options with future := Automaton.future r.automaton } (r.source.under encoding?)
        r.automaton)
      (conclude_under encoding? start filename? result r.source r.pragmas)

theorem tokens_readingRaw {σ : Type} [TokenSource σ] (raw : Bool) (source : σ) (automaton : α) :
    tokens fuel start (options.readingRaw raw) filename? source automaton =
      (tokens fuel start options filename? source automaton).map fun o =>
        { o with options := o.options.readingRaw raw } := by
  have hloop := Run.loop_ignoreCookie (σ := σ) (α := α) options.flags raw fuel
  unfold tokens
  have hcapacity : PragmaBuffer.ofCapacity (options.readingRaw raw).pragmaCapacity
      (options.readingRaw raw).pragmaLimit? =
      PragmaBuffer.ofCapacity options.pragmaCapacity options.pragmaLimit? := rfl
  rw [hcapacity]
  cases PragmaBuffer.ofCapacity options.pragmaCapacity options.pragmaLimit? with
  | error e => rfl
  | ok pragmas =>
    dsimp only [Options.readingRaw]
    rw [hloop, Option.map_map]
    rfl

theorem attempt?_encoding (g : Grammar) (text : List Char) :
    attempt? g start options filename? ⟨text, encoding?⟩ =
      (attempt? g start options filename? ⟨text, none⟩).map fun o =>
        { o with
          result := o.result.map (nameEncoding encoding?)
          source := o.source.under encoding? } := by
  unfold attempt?
  cases Pushdown.start? g start.symbol Pushdown.defaultMaxDepth with
  | none => rfl
  | some automaton =>
    exact tokens_under encoding? _ start options filename?
      (Lexer.ofSource options.flags.asyncAlways ⟨text, none⟩) automaton

theorem attempt?_readingRaw (raw : Bool) (g : Grammar) (s : Source) :
    attempt? g start (options.readingRaw raw) filename? s =
      (attempt? g start options filename? s).map fun o =>
        { o with options := o.options.readingRaw raw } := by
  unfold attempt?
  cases Pushdown.start? g start.symbol Pushdown.defaultMaxDepth with
  | none => rfl
  | some automaton => exact tokens_readingRaw _ start options filename? raw _ automaton

/-- A parse by any grammar names at the root what encoding it is told. -/
theorem sourceBy_encoding (grammar : Except GrammarError Grammar) (text : List Char) :
    sourceBy grammar start options filename? ⟨text, encoding?⟩ =
      ((sourceBy grammar start options filename? ⟨text, none⟩).1.map (nameEncoding encoding?),
        (sourceBy grammar start options filename? ⟨text, none⟩).2) := by
  unfold sourceBy
  cases grammar.toOption with
  | none => rfl
  | some g =>
    rw [Option.bind_some, Option.bind_some, attempt?_encoding encoding?]
    cases attempt? g start options filename? ⟨text, none⟩ <;> rfl

theorem sourceBy_readingRaw (raw : Bool) (grammar : Except GrammarError Grammar) (s : Source) :
    sourceBy grammar start (options.readingRaw raw) filename? s =
      ((sourceBy grammar start options filename? s).1,
        (sourceBy grammar start options filename? s).2.readingRaw raw) := by
  unfold sourceBy
  cases grammar.toOption with
  | none => rfl
  | some g =>
    rw [Option.bind_some, Option.bind_some, attempt?_readingRaw]
    cases attempt? g start options filename? s <;> rfl

theorem sourceBy_raw (grammar : Except GrammarError Grammar) (text : List Char) :
    sourceBy grammar start (options.readingRaw true) filename? ⟨text, some "utf-8"⟩ =
      ((sourceBy grammar start (options.readingRaw false) filename? ⟨text, none⟩).1.map
          (wrapEncoding "utf-8"),
        (sourceBy grammar start (options.readingRaw false) filename? ⟨text, none⟩).2.readingRaw
          true) := by
  rw [sourceBy_encoding (some "utf-8"), sourceBy_readingRaw _ _ _ true,
    sourceBy_readingRaw _ _ _ false]
  rfl

/-- A parse by the reference grammar, of a text that is read raw and of one that is not. -/
theorem source_raw (text : List Char) :
    source start (options.readingRaw true) filename? ⟨text, some "utf-8"⟩ =
      ((source start (options.readingRaw false) filename? ⟨text, none⟩).1.map
          (wrapEncoding "utf-8"),
        (source start (options.readingRaw false) filename? ⟨text, none⟩).2.readingRaw true) := by
  unfold source
  exact sourceBy_raw start options filename? _ text

variable {input : List UInt8}

/-- Bytes that say nothing of their encoding are read as UTF-8, or not at all, in either way. -/
theorem decode_of_silent (mode : DecodeMode) (hmark : ¬Source.mark <+: input)
    (hcookie : Source.cookie? input = none) :
    Source.decode mode none input =
      (if maxPosition < input.length then .error (.tooLarge input.length)
        else Source.readBody .utf8 input 0).map
        fun text => ⟨text, match mode with | .raw => some "utf-8" | .cookie => none⟩ := by
  have hcut : Source.cutMark input = (input, false) := by
    rw [Source.cutMark, if_neg fun h => hmark (List.isPrefixOf_iff_prefix.1 h)]
  by_cases hsize : maxPosition < input.length
  · rw [Source.decode, if_pos hsize, if_pos hsize]
    rfl
  · rw [if_neg hsize]
    cases mode with
    | raw =>
      rw [Source.decode, if_neg hsize, hcut]
      dsimp only
      rw [Nat.sub_self]
      cases Source.readBody .utf8 input 0 <;> rfl
    | cookie =>
      rw [Source.decode_cookie_of_unmarked (Nat.not_lt.1 hsize) hcut, hcookie]
      cases h : Source.readBody .utf8 input 0 with
      | error e => exact bind_eq_error.2 (Or.inr ⟨.utf8, rfl, bind_eq_error.2 (Or.inl h)⟩)
      | ok text => exact bind_eq_ok.2 ⟨.utf8, rfl, bind_eq_ok.2 ⟨text, h, rfl⟩⟩

theorem bytes_of_ok {s : Source}
    (h : Source.decode options.flags.decodeMode encoding? input = .ok s) :
    bytes start options filename? encoding? input = source start options filename? s := by
  rw [bytes, h]

theorem bytes_of_error {e : DecodeError}
    (h : Source.decode options.flags.decodeMode encoding? input = .error e) :
    bytes start options filename? encoding? input =
      (.error (ofDecodeError input filename? e), options) := by
  rw [bytes, h]

/-- To read bytes raw that say nothing of their encoding puts the tree below a node that names
UTF-8, and does nothing else. -/
theorem bytes_of_silent (hmark : ¬Source.mark <+: input) (hcookie : Source.cookie? input = none) :
    bytes start (options.readingRaw true) filename? none input =
      ((bytes start (options.readingRaw false) filename? none input).1.map (wrapEncoding "utf-8"),
        (bytes start (options.readingRaw false) filename? none input).2.readingRaw true) := by
  have hraw : Source.decode (options.readingRaw true).flags.decodeMode none input = _ :=
    decode_of_silent .raw hmark hcookie
  have hplain : Source.decode (options.readingRaw false).flags.decodeMode none input = _ :=
    decode_of_silent .cookie hmark hcookie
  cases hread : (if maxPosition < input.length then .error (.tooLarge input.length)
    else Source.readBody .utf8 input 0 : Except DecodeError (List Char)) with
  | error e =>
    rw [hread] at hraw hplain
    rw [bytes_of_error none start _ filename? hraw, bytes_of_error none start _ filename? hplain]
    rfl
  | ok text =>
    rw [hread] at hraw hplain
    rw [bytes_of_ok none start _ filename? hraw, bytes_of_ok none start _ filename? hplain]
    exact source_raw start options filename? text

theorem map_wrapEncoding_eq_ok_iff {ε : Type} {result : Except ε Node} {encoding : String}
    {tree : Node} :
    result.map (wrapEncoding encoding) = .ok (wrapEncoding encoding tree) ↔ result = .ok tree := by
  cases result with
  | error e => exact iff_of_false (fun h => by cases h) fun h => by cases h
  | ok tree' =>
    constructor
    · intro h
      obtain rfl : tree' = tree := by
        injection Except.ok.inj h with _ _ _ _ hchildren
        exact List.head_eq_of_cons_eq hchildren
      rfl
    · rintro ⟨⟩
      rfl

theorem map_eq_error_iff {ε : Type} {result : Except ε Node} {f : Node → Node} {e : ε} :
    result.map f = .error e ↔ result = .error e := by
  cases result with
  | error e' => exact Iff.rfl
  | ok tree => exact iff_of_false (fun h => by cases h) fun h => by cases h

/-- To report the encoding of bytes that say nothing of it only wraps the tree: either way of
reading gives the same tree, below a node of its own in the one case, or fails with the same
diagnostic, and the features end the same. -/
theorem bytes_readingRaw (hmark : ¬Source.mark <+: input) (hcookie : Source.cookie? input = none) :
    (∀ tree,
      (bytes start (options.readingRaw true) filename? none input).1 =
          .ok (.mk (.symbol .encodingDecl) (some "utf-8") 0 none [tree]) ↔
        (bytes start (options.readingRaw false) filename? none input).1 = .ok tree) ∧
    (∀ d, (bytes start (options.readingRaw true) filename? none input).1 = .error d ↔
        (bytes start (options.readingRaw false) filename? none input).1 = .error d) ∧
    (bytes start (options.readingRaw true) filename? none input).2.future =
      (bytes start (options.readingRaw false) filename? none input).2.future := by
  rw [bytes_of_silent start options filename? hmark hcookie]
  exact ⟨fun _ => map_wrapEncoding_eq_ok_iff, fun _ => map_eq_error_iff, rfl⟩

theorem bytes_readingRaw_block :
    ∃ tree,
      (bytes .file (Options.ofFlags Flags.unset) none none (Text.encode "if x:\n y\n".toList)).1 =
        .ok tree ∧
      (bytes .file (Options.ofFlags ⟨true, false, false⟩) none none
          (Text.encode "if x:\n y\n".toList)).1 =
        .ok (.mk (.symbol .encodingDecl) (some "utf-8") 0 none [tree]) := by
  obtain ⟨tree, h⟩ := text_of_trial
    (t := ⟨.file, ['i', 'f', ' ', 'x', ':', '\n', ' ', 'y', '\n'], some []⟩) (by decide) rfl
    (by decide +kernel)
  have hmark : ¬Source.mark <+: Text.encode "if x:\n y\n".toList := by decide
  have hraw := bytes_readingRaw .file (Options.ofFlags Flags.unset) none hmark (by decide +kernel)
  exact ⟨tree, h, (hraw.1 tree).2 h⟩

end Parse
end Offside
