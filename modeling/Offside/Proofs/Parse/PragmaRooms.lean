import Offside.Proofs.Lexer.Stops
import Offside.Proofs.Parse.Encodings
import Offside.Proofs.Parse.Ending
import Offside.Proofs.Parse.Pragmas
import Offside.Proofs.PragmaRooms
import Offside.Proofs.Source.Sizes

/-!
Parses with little room for pragmas. A run does the same whatever buffer its pragmas go to, up to
the first one that the buffer refuses. There it fails for want of memory, and as no pragma comes
after the text has ended, that is what the diagnostic tells.
-/

namespace Offside

namespace Run

section Generic

variable {σ α : Type} [Automaton α] {r : Run σ α} {x : Lexeme} {kind : Kind} {source : σ}

/-- A run whose pragmas go to another buffer. -/
def storingIn (b : PragmaBuffer) (r : Run σ α) : Run σ α := { r with pragmas := b }

theorem receive_storingIn (hkind : kind ≠ .typeIgnore) (x : Lexeme) (r : Run σ α)
    (b : PragmaBuffer) :
    receive x kind (r.storingIn b) =
      ((receive x kind r).1, (receive x kind r).2.storingIn b) := by
  have hautomaton : (r.storingIn b).automaton = r.automaton := rfl
  rw [receive, receive, if_neg hkind, if_neg hkind, offer, offer, hautomaton]
  cases checkSpelling (Automaton.future r.automaton) { x.token with kind } with
  | error f => rfl
  | ok _ =>
    dsimp only
    cases (Automaton.feed { x.token with kind } r.automaton).1 <;> rfl

variable [TokenSource σ] {flags : Flags}

/-- A step that reads a pragma stores it, or fails where it is refused. -/
theorem step_of_pragma (flags : Flags) (h : TokenSource.next r.source = (.ok x, source))
    (hx : x.kind = .typeIgnore) :
    r.step flags =
      match r.pragmas.push x.line x.text with
      | .ok pragmas => (.more, { r with source, pragmas, started := true })
      | .error e => (.failed (.ofAllocError e), { r with source, started := true }) := by
  have hgoes : x.kind ≠ .endMarker := by
    rw [hx]
    decide
  rw [step_of_token flags h hgoes, receive]
  exact if_pos hx

/-- Any other step is the same whatever the buffer. -/
theorem step_storingIn (flags : Flags)
    (h : ∀ x source, TokenSource.next r.source = (.ok x, source) → x.kind ≠ .typeIgnore)
    (b : PragmaBuffer) :
    (r.storingIn b).step flags = ((r.step flags).1, (r.step flags).2.storingIn b) := by
  cases hnext : TokenSource.next r.source with
  | mk answer source =>
    cases answer with
    | error e =>
      rw [step_of_error (r := r) hnext, step_of_error (r := r.storingIn b) hnext]
      rfl
    | ok x =>
      by_cases hx : x.kind = .endMarker
      · cases hstarted : r.started with
        | false =>
          rw [step_of_fresh flags (r := r) hnext hx hstarted,
            step_of_fresh flags (r := r.storingIn b) hnext hx hstarted]
          exact receive_storingIn (by decide) x { r with source, started := true } b
        | true =>
          rw [step_of_end flags (r := r) hnext hx hstarted,
            step_of_end flags (r := r.storingIn b) hnext hx hstarted]
          exact receive_storingIn (by decide) x
            { r with source := closeBlocks flags source, started := false } b
      · rw [step_of_token flags (r := r) hnext hx,
          step_of_token flags (r := r.storingIn b) hnext hx]
        exact receive_storingIn (h x source hnext) x { r with source, started := true } b

end Generic

open Lexer

variable {α : Type} [Automaton α] {flags : Flags} {r r₁ r' : Run Lexer α} {tree : Node}

/-- The lexer has not stopped, or it has no more pragmas to hand out. -/
def Running (r : Run Lexer α) : Prop := r.source.stop = .running ∨ r.source.upcoming = []

theorem running_step (hstep : r.step flags = (.more, r₁)) (h : r.Running) : r₁.Running := by
  obtain ⟨x, ly, hnext, ⟨hx, hreceive⟩ | ⟨hx, kind, source, started, -, hatEnd, hreceive⟩⟩ :=
    step_reads hstep fun _ => Progress.noConfusion
  · have hsource := (source_receive x x.kind { r with source := ly, started := true }).1
    rw [hreceive] at hsource
    dsimp only at hsource
    rw [Running, hsource]
    refine h.imp (stop_of_next hnext hx).trans fun hnone => ?_
    rw [upcoming_of_token hnext hx, List.append_eq_nil_iff] at hnone
    exact hnone.2
  · have hsource := (source_receive x kind { r with source, started }).1
    rw [hreceive] at hsource
    dsimp only at hsource
    rw [Running, hsource]
    exact Or.inr hatEnd.upcoming

omit [Automaton α] in
/-- Where a pragma is read, the lexer has not stopped. -/
theorem Running.stop_of_pragma (h : r.Running) {x : Lexeme} {ly : Lexer}
    (hnext : r.source.next = (.ok x, ly)) (hx : x.kind = .typeIgnore) : ly.stop = .running := by
  have hgoes : x.kind ≠ .endMarker := by
    rw [hx]
    decide
  refine (stop_of_next hnext hgoes).trans (h.resolve_right fun hnone => ?_)
  rw [upcoming_of_token hnext hgoes, keepPragmas_cons_of_eq (t := x.token) hx] at hnone
  cases hnone

/-- Replayed with any other buffer, a run gives the same tree if that one stores the pragmas that
are read, and fails where the first one is refused. -/
def Replays (flags : Flags) (fuel : Nat) (r : Run Lexer α) (tree : Node) (r' : Run Lexer α)
    (es : List PragmaEntry) : Prop :=
  ∀ b : PragmaBuffer,
    (∀ b', b.store es = .ok b' →
      loop flags fuel (r.storingIn b) = some (.ok tree, r'.storingIn b')) ∧
    ∀ e, b.store es = .error e → ∃ r'',
      loop flags fuel (r.storingIn b) = some (.error (.ofAllocError e), r'') ∧
        r''.source.stop = .running

section Plain

variable (hplain : ∀ x ly, r.source.next = (.ok x, ly) → x.kind ≠ .typeIgnore)

include hplain

theorem pragmas_of_plain {progress : Progress} (hstep : r.step flags = (progress, r₁)) :
    r₁.pragmas = r.pragmas := by
  have hself := step_storingIn flags hplain r.pragmas
  rw [show r.storingIn r.pragmas = r from rfl, hstep] at hself
  exact congrArg (fun p => p.2.pragmas) hself

theorem replays_of_accepted (fuel : Nat) (hstep : r.step flags = (.accepted tree, r')) :
    Replays flags (fuel + 1) r tree r' [] := by
  intro b
  rw [loop, step_storingIn flags hplain, hstep]
  constructor
  · intro b' hb'
    cases hb'
    rfl
  · intro e he
    cases he

theorem Replays.of_plain {fuel : Nat} {es : List PragmaEntry} (h : Replays flags fuel r₁ tree r' es)
    (hstep : r.step flags = (.more, r₁)) : Replays flags (fuel + 1) r tree r' es := by
  intro b
  rw [loop, step_storingIn flags hplain, hstep]
  exact h b

end Plain

theorem Replays.of_pragma {fuel : Nat} {es : List PragmaEntry} {x : Lexeme} {ly : Lexer}
    {pragmas : PragmaBuffer}
    (h : Replays flags fuel { r with source := ly, pragmas, started := true } tree r' es)
    (hrunning : r.Running) (hnext : r.source.next = (.ok x, ly)) (hx : x.kind = .typeIgnore) :
    Replays flags (fuel + 1) r tree r' (⟨x.line, x.text⟩ :: es) := by
  intro b
  have hpragmas : (r.storingIn b).pragmas = b := rfl
  rw [loop, step_of_pragma (r := r.storingIn b) flags hnext hx, hpragmas, PragmaBuffer.store_cons]
  cases b.push x.line x.text with
  | ok b₁ => exact h b₁
  | error e =>
    constructor
    · intro b' hb'
      cases hb'
    · intro e' he'
      cases he'
      exact ⟨_, rfl, hrunning.stop_of_pragma hnext hx⟩

/-- A run that gives a tree has stored some pragmas, and with other buffers all depends on them. -/
theorem exists_replays {fuel : Nat} (h : loop flags fuel r = some (.ok tree, r'))
    (hrunning : r.Running) :
    ∃ es : List PragmaEntry, es.length ≤ fuel ∧ r'.pragmas.toList = r.pragmas.toList ++ es ∧
      Replays flags fuel r tree r' es := by
  induction fuel generalizing r with
  | zero => cases h
  | succ fuel ih =>
    rw [loop] at h
    by_cases hpragma : ∃ x ly, r.source.next = (.ok x, ly) ∧ x.kind = .typeIgnore
    · obtain ⟨x, ly, hnext, hx⟩ := hpragma
      have hstep := step_of_pragma (r := r) flags hnext hx
      cases hpush : r.pragmas.push x.line x.text with
      | error e =>
        rw [hstep, hpush] at h
        cases h
      | ok pragmas =>
        rw [hpush] at hstep
        rw [hstep] at h
        obtain ⟨es, hlength, hlist, hreplays⟩ := ih h (running_step hstep hrunning)
        refine ⟨⟨x.line, x.text⟩ :: es, Nat.succ_le_succ hlength, ?_,
          hreplays.of_pragma hrunning hnext hx⟩
        rw [hlist]
        dsimp only
        rw [PragmaBuffer.toList_push hpush, List.append_assoc]
        rfl
    · have hplain : ∀ x ly, r.source.next = (.ok x, ly) → x.kind ≠ .typeIgnore :=
        fun x ly hnext hx => hpragma ⟨x, ly, hnext, hx⟩
      cases hstep : r.step flags with
      | mk progress r₁ =>
        rw [hstep] at h
        have hsame := pragmas_of_plain hplain hstep
        cases progress with
        | more =>
          obtain ⟨es, hlength, hlist, hreplays⟩ := ih h (running_step hstep hrunning)
          exact ⟨es, Nat.le_succ_of_le hlength, by rw [hlist, hsame],
            hreplays.of_plain hplain hstep⟩
        | accepted tree' =>
          cases h
          exact ⟨[], Nat.zero_le _, by rw [hsame, List.append_nil],
            replays_of_accepted hplain fuel hstep⟩
        | failed f => cases h

end Run

/-- The options with another room for pragmas. -/
def Options.withPragmas (capacity : Nat) (limit? : Option Nat) (options : Options) : Options :=
  { options with pragmaCapacity := capacity, pragmaLimit? := limit? }

namespace Parse

open Grammar Pushdown Run Lexer PragmaBuffer

variable {g : Grammar} {start : StartRule} {options : Options} {filename? encoding? : Option String}
  {s : Source} {input : List UInt8} {tree : Node} {capacity : Nat} {limit? : Option Nat}

/-- What a parse comes to is what its run comes to. -/
theorem source_of_loop (options : Options) {automaton : Pushdown} {b : PragmaBuffer}
    {result : Except Failure Node} {r : Run Lexer Pushdown} (hgrammar : Reference.grammar = .ok g)
    (hstart : start? g start.symbol defaultMaxDepth = some automaton)
    (hb : ofCapacity options.pragmaCapacity options.pragmaLimit? = .ok b)
    (hloop : loop options.flags (fuel (ofSource options.flags.asyncAlways s))
      (opening options s automaton b) = some (result, r)) :
    (source start options filename? s).1 =
      (result >>= finish start r.source r.pragmas).mapError (report r.source filename?) := by
  have htokens : ∃ o, tokens (fuel (ofSource options.flags.asyncAlways s)) start options filename?
      (ofSource options.flags.asyncAlways s) automaton = some o ∧
      o.result =
        (result >>= finish start r.source r.pragmas).mapError (report r.source filename?) := by
    unfold tokens
    rw [hb]
    exact ⟨_, Option.map_eq_some_iff.2 ⟨_, hloop, rfl⟩, rfl⟩
  obtain ⟨o, htokens, hresult⟩ := htokens
  have hattempt : attempt? g start options filename? s = some o := by
    rw [attempt?, hstart]
    exact htokens
  rw [source, hgrammar, sourceBy_of_attempt? hattempt, hresult]

/-- A tree is finished with the entries of a buffer, whatever its room. -/
theorem finish_congr {lx : Lexer} {pragmas pragmas' : PragmaBuffer}
    (h : pragmas'.toList = pragmas.toList) (tree : Node) :
    finish start lx pragmas' tree = finish start lx pragmas tree := by
  rw [finish_eq, finish_eq, h]

theorem kind_of_report {lx : Lexer} (hstop : lx.stop = .running) (f : Failure) :
    (report lx filename? f).kind = f.kind := by
  have hreason : TokenSource.stopReason lx = .running := hstop
  rw [report, hreason]
  rfl

/-- So few pragmas need no double that cannot be reserved. -/
theorem reserves_of_le (capacity : Nat) (limit? : Option Nat) {n : Nat}
    (hn : n ≤ 6 * maxPosition + 4) : Reserves capacity limit? n := by
  intro m _ hlt
  have hmax : maxPosition = 4294967295 := rfl
  have hroom : unallocatable = 288230376151711744 := by decide
  omega

/-- A text that gives a module gives it by a run that stores its pragmas, and any buffer that
stores them would do. -/
theorem exists_replays_of_source (h : (source .file options filename? s).1 = .ok tree) :
    ∃ (g : Grammar) (automaton : Pushdown) (pragmas : PragmaBuffer) (tree₀ : Node)
      (r : Run Lexer Pushdown) (es : List PragmaEntry),
      Reference.grammar = .ok g ∧
      start? g StartRule.file.symbol defaultMaxDepth = some automaton ∧
      es.length = (keepPragmas tree.everyToken).length ∧ es.length ≤ 6 * s.text.length + 4 ∧
      Replays options.flags (fuel (ofSource options.flags.asyncAlways s))
        (opening options s automaton pragmas) tree₀ r es ∧
      ∀ b : PragmaBuffer, b.toList = es → finish .file r.source b tree₀ = .ok tree := by
  obtain ⟨g, automaton, o, hgrammar, hchecked, hstart, htokens, hsource⟩ :=
    exists_outcome .file options filename? s
  have ho : o.result = .ok tree := by rw [← h, hsource]
  rcases tokens_eq_some htokens with ⟨e, -, herror⟩ | ⟨pragmas, result, r, hpragmas, hloop, rfl⟩
  · rw [herror] at ho
    cases ho
  · cases result with
    | error f => cases ho
    | ok tree₀ =>
      have hfinish : finish .file r.source r.pragmas tree₀ = .ok tree := mapError_eq_ok ho
      have hg := Reference.lawful hgrammar
      obtain ⟨ts, hsound⟩ :=
        sound_of_gives hg (gives_of_loop hloop) (reading_opening hstart options s pragmas)
      obtain ⟨es, hlength, hlist, hreplays⟩ := exists_replays hloop (Or.inl rfl)
      dsimp only at hlist
      rw [toList_ofCapacity hpragmas, List.nil_append] at hlist
      refine ⟨g, automaton, pragmas, tree₀, r, es, hgrammar, hstart, ?_, ?_, hreplays,
        fun b hb => ?_⟩
      · rw [keepPragmas_of_finish hg hchecked.lineEnds hchecked.noPragmas hsound hfinish,
          List.length_map, hlist]
      · rwa [fuel_ofSource] at hlength
      · rw [finish_congr (hb.trans hlist.symm), hfinish]

/-- A text that gives a module gives the same one where there is room for its pragmas, and where
there is not its parse fails for want of memory. -/
theorem source_withPragmas (h : (source .file options filename? s).1 = .ok tree)
    (hsize : s.text.length ≤ maxPosition) (hcapacity : max 1 capacity < unallocatable) :
    (Admits capacity limit? (keepPragmas tree.everyToken).length →
      (source .file (options.withPragmas capacity limit?) filename? s).1 = .ok tree) ∧
    (¬Admits capacity limit? (keepPragmas tree.everyToken).length →
      ∃ d, (source .file (options.withPragmas capacity limit?) filename? s).1 = .error d ∧
        d.kind = .outOfMemory) := by
  obtain ⟨g, automaton, pragmas, tree₀, r, es, hgrammar, hstart, hcount, hlength, hreplays,
    hfinish⟩ := exists_replays_of_source h
  have hb := ofCapacity_eq_ok limit? hcapacity
  have hgrown := grown_ofCapacity hb
  have hsize := size_ofCapacity hb
  have hreserves : Reserves capacity limit? es.length := reserves_of_le capacity limit? (by omega)
  have hok := hgrown.store_ok es
  have herror := hgrown.store_error es
  obtain ⟨hstored, hrefused⟩ := hreplays ⟨#[], max 1 capacity, limit?⟩
  rw [hsize, Nat.zero_add] at hok herror
  rw [← hcount]
  constructor
  · intro hadmits
    obtain ⟨b', hstore, hlist⟩ := hok hadmits hreserves
    rw [toList_ofCapacity hb, List.nil_append] at hlist
    rw [source_of_loop (options.withPragmas capacity limit?) hgrammar hstart hb
      (hstored b' hstore)]
    show (finish .file r.source b' tree₀).mapError _ = _
    rw [hfinish b' hlist]
    rfl
  · intro hno
    obtain ⟨e, hstore⟩ := herror hno hreserves
    obtain ⟨r', hloop, hstop⟩ := hrefused e hstore
    rw [source_of_loop (options.withPragmas capacity limit?) hgrammar hstart hb hloop]
    exact ⟨_, rfl, kind_of_report hstop _⟩

theorem bytes_withPragmas (h : (bytes .file options filename? encoding? input).1 = .ok tree)
    (hcapacity : max 1 capacity < unallocatable) (limit? : Option Nat) :
    (Admits capacity limit? (keepPragmas tree.everyToken).length →
      (bytes .file (options.withPragmas capacity limit?) filename? encoding? input).1 = .ok tree) ∧
    (¬Admits capacity limit? (keepPragmas tree.everyToken).length →
      ∃ d, (bytes .file (options.withPragmas capacity limit?) filename? encoding? input).1 =
        .error d ∧ d.kind = .outOfMemory) := by
  obtain ⟨s, hs, h⟩ := bytes_eq_ok h
  rw [bytes_of_ok encoding? .file (options.withPragmas capacity limit?) filename? hs]
  exact source_withPragmas h (Source.length_of_source hs) hcapacity

/-- The pragmas of a module are those that the lexer hands out. -/
theorem keepPragmas_of_source (h : (source .file options filename? s).1 = .ok tree) :
    keepPragmas tree.everyToken =
      (ofSource options.flags.asyncAlways s).upcoming.map Token.atMargin := by
  obtain ⟨g, o, hgrammar, ho, htree⟩ := source_eq_ok h
  obtain ⟨g', hg', hchecked⟩ := Reference.exists_checked
  obtain rfl : g' = g := Except.ok.inj (hg'.symm.trans hgrammar)
  exact (attempt?_pragmas (Reference.lawful hg') hchecked.lineEnds hchecked.noPragmas ho htree).2.1

/-- The room for pragmas is doubled up to the limit and no further. Under a limit there is a
greatest room that it does not stop: as many pragmas are stored as that takes, and the others are
refused, each for the sake of the limit; and a text that gives a module gives the same one if it has
no more of them, and otherwise its parse fails for want of memory. Without a limit all are stored,
and the module is the same in any case. -/
theorem pragma_rooms (capacity : Nat) (hcapacity : max 1 capacity < unallocatable) :
    (∀ limit, ∃ m, IsGreatest (rooms capacity (some limit)) m ∧
      (∀ es, Reserves capacity (some limit) es.length →
        ∃ b, ofCapacity capacity (some limit) = .ok b ∧
          (storeAll es b).1 = List.replicate (min m es.length) (.ok ()) ++
            List.replicate (es.length - m) (.error (.limitReached limit)) ∧
          (storeAll es b).2.toList = es.take m) ∧
      ∀ options filename? encoding? input tree,
        (bytes .file options filename? encoding? input).1 = .ok tree →
        ((keepPragmas tree.everyToken).length ≤ m →
          (bytes .file (options.withPragmas capacity (some limit)) filename? encoding? input).1 =
            .ok tree) ∧
        (m < (keepPragmas tree.everyToken).length →
          ∃ d, (bytes .file (options.withPragmas capacity (some limit)) filename? encoding?
            input).1 = .error d ∧ d.kind = .outOfMemory)) ∧
    (∀ es, Reserves capacity none es.length →
      ∃ b, ofCapacity capacity none = .ok b ∧
        (storeAll es b).1 = List.replicate es.length (.ok ()) ∧ (storeAll es b).2.toList = es) ∧
    ∀ options filename? encoding? input tree,
      (bytes .file options filename? encoding? input).1 = .ok tree →
      (bytes .file (options.withPragmas capacity none) filename? encoding? input).1 = .ok tree := by
  refine ⟨fun limit => ?_, fun es hreserves => ?_,
    fun options filename? encoding? input tree h => ?_⟩
  · obtain ⟨m, hm⟩ := exists_isGreatest_rooms capacity limit
    refine ⟨m, hm, fun es hreserves => ?_, fun options filename? encoding? input tree h => ?_⟩
    · have hb := ofCapacity_eq_ok (some limit) hcapacity
      exact ⟨_, hb, storeAll_of_isGreatest hb hm hreserves⟩
    · obtain ⟨hsame, hfails⟩ := bytes_withPragmas h hcapacity (some limit)
      rw [admits_iff hm] at hsame hfails
      exact ⟨hsame, fun hlt => hfails (Nat.not_le.2 hlt)⟩
  · have hb := ofCapacity_eq_ok none hcapacity
    exact ⟨_, hb, storeAll_of_unlimited hb hreserves⟩
  · exact (bytes_withPragmas h hcapacity none).1 (admits_none _ _)

/-- Two pragmas where there is room for one. -/
theorem pragma_rooms_two_lines :
    (∃ b, ofCapacity 1 (some 1) = .ok b ∧
      (storeAll [⟨1, ""⟩, ⟨2, " a"⟩] b).1 = [.ok (), .error (.limitReached 1)] ∧
      (storeAll [⟨1, ""⟩, ⟨2, " a"⟩] b).2.toList = [⟨1, ""⟩]) ∧
    ∃ d, (bytes .file ((Options.ofFlags Flags.unset).withPragmas 1 (some 1)) none none
        (Text.encode "#type:ignore\nx #type: ignore a\n".toList)).1 = .error d ∧
      d.kind = .outOfMemory := by
  obtain ⟨hlimited, -, -⟩ := pragma_rooms 1 (by decide)
  obtain ⟨m, hm, hstores, hparses⟩ := hlimited 1
  have hone : m = 1 := by
    obtain ⟨⟨k, rfl, hk⟩, hgreatest⟩ := hm
    have hle := hgreatest (first_mem_rooms 1 (some 1))
    rcases hk with rfl | hk
    · rfl
    · exact Nat.le_antisymm (hk 1 rfl) hle
  subst hone
  have hread : Source.decode (Options.ofFlags Flags.unset).flags.decodeMode none
      (Text.encode "#type:ignore\nx #type: ignore a\n".toList) =
      .ok ⟨"#type:ignore\nx #type: ignore a\n".toList, none⟩ := by decide +kernel
  obtain ⟨tree, h⟩ := text_of_trial
    (t := ⟨.file, "#type:ignore\nx #type: ignore a\n".toList, some []⟩) (by decide) rfl
    (by decide +kernel)
  have hsource := h
  rw [text_of_decode hread] at hsource
  have hupcoming : (ofSource (Options.ofFlags Flags.unset).flags.asyncAlways
      ⟨"#type:ignore\nx #type: ignore a\n".toList, none⟩).upcoming.length = 2 := by
    decide +kernel
  have hcount : (keepPragmas tree.everyToken).length = 2 := by
    rw [keepPragmas_of_source hsource, List.length_map, hupcoming]
  refine ⟨hstores [⟨1, ""⟩, ⟨2, " a"⟩] (reserves_of_le _ _ (by decide)), ?_⟩
  exact (hparses (Options.ofFlags Flags.unset) none none _ tree h).2 (by rw [hcount]; decide)

end Parse
end Offside
