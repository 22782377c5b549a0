import Offside.Proofs.Lexer.Balance
import Offside.Proofs.Parse.Attempt
import Offside.Proofs.Parse.Finish

/-!
What the tree of a module holds of its text: all tokens but the pragmas, in order and each with its
place, and behind them what a run adds where the input ends. A run follows the lexer to its first
end marker; from there on it reads a newline for that marker, the dedents that it has asked for, a
newline again if there were any, and the end marker. Without the dedents no block would be closed,
and there would be no tree.
-/

namespace Offside

/-- The tokens that are no pragmas. -/
def dropPragmas (ts : List Token) : List Token := ts.filter fun t => t.kind ≠ .typeIgnore

theorem dropPragmas_append (ts us : List Token) :
    dropPragmas (ts ++ us) = dropPragmas ts ++ dropPragmas us := List.filter_append ts us

theorem dropPragmas_cons_of_ne {t : Token} (h : t.kind ≠ .typeIgnore) (ts : List Token) :
    dropPragmas (t :: ts) = t :: dropPragmas ts := List.filter_cons_of_pos (by simpa using h)

theorem dropPragmas_cons_of_eq {t : Token} (h : t.kind = .typeIgnore) (ts : List Token) :
    dropPragmas (t :: ts) = dropPragmas ts := List.filter_cons_of_neg (by simpa using h)

theorem dropPragmas_dropPragmas (ts : List Token) :
    dropPragmas (dropPragmas ts) = dropPragmas ts := by
  rw [dropPragmas, dropPragmas, List.filter_filter]
  simp only [Bool.and_self]

/-- Pragmas open and close nothing. -/
theorem rise_dropPragmas (ts : List Token) : rise (dropPragmas ts) = rise ts := by
  induction ts with
  | nil => rfl
  | cons t ts ih =>
    by_cases h : t.kind = .typeIgnore
    · rw [dropPragmas_cons_of_eq h, ih, rise_cons, h]
      exact (Int.zero_add _).symm
    · rw [dropPragmas_cons_of_ne h, rise_cons, rise_cons, ih]

/-- A token that stands for no text. -/
def Token.added (kind : Kind) (line : Nat) : Token := ⟨kind, "", line, none⟩

/-- What follows the tokens of a text that leaves `depth` blocks open, if it has any tokens. -/
def closing (line : Nat) (hasTokens : Bool) (depth : Nat) : List Token :=
  if hasTokens then
    if depth = 0 then [.added .newline line, .added .endMarker line]
    else .added .newline line :: (List.replicate depth (.added .dedent line) ++
      [.added .newline line, .added .endMarker line])
  else [.added .endMarker line]

theorem kind_of_mem_closing {line : Nat} {hasTokens : Bool} {depth : Nat} {t : Token}
    (h : t ∈ closing line hasTokens depth) :
    t.kind = .newline ∨ t.kind = .dedent ∨ t.kind = .endMarker := by
  unfold closing at h
  split at h
  · split at h
    · rcases List.mem_pair.1 h with rfl | rfl
      · exact Or.inl rfl
      · exact Or.inr (Or.inr rfl)
    · rcases List.mem_cons.1 h with rfl | h
      · exact Or.inl rfl
      · rcases List.mem_append.1 h with h | h
        · rw [List.eq_of_mem_replicate h]
          exact Or.inr (Or.inl rfl)
        · rcases List.mem_pair.1 h with rfl | rfl
          · exact Or.inl rfl
          · exact Or.inr (Or.inr rfl)
  · rw [List.mem_singleton.1 h]
    exact Or.inr (Or.inr rfl)

theorem dropPragmas_closing (line : Nat) (hasTokens : Bool) (depth : Nat) :
    dropPragmas (closing line hasTokens depth) = closing line hasTokens depth := by
  refine List.filter_eq_self.2 fun t ht => ?_
  rcases kind_of_mem_closing ht with h | h | h <;> simp [h]

namespace Run

open Grammar Pushdown Lexer

variable {g : Grammar} {root : Symbol} {ends : List Symbol} {ts : List Token} {flags : Flags}
  {r r' : Run Lexer Pushdown} {x : Lexeme} {kind : Kind} {tree : Node}

/-- A tree that ends in the end marker is not given for another token. -/
theorem receive_ne_accepted (hg : g.Lawful) (h : Reading g root ts r.automaton)
    (hend : tree.tokens.getLast?.map Token.kind = some .endMarker) (hkind : kind ≠ .endMarker) :
    receive x kind r ≠ (.accepted tree, r') := by
  intro haccepted
  have hreceived := received hg h x kind
  rw [haccepted] at hreceived
  cases hreceived with
  | accepted hsound =>
    rw [hsound.tokens, List.getLast?_concat] at hend
    exact hkind (Option.some.inj hend)

/-- A run reads lexemes up to an end marker, and goes on there to give a tree. -/
structure ReachesEnd (g : Grammar) (root : Symbol) (flags : Flags) (ts : List Token)
    (r : Run Lexer Pushdown) (tree : Node) (r' : Run Lexer Pushdown) (xs : List Lexeme)
    (e : Lexeme) (ly : Lexer) (r₁ : Run Lexer Pushdown) : Prop where
  yields : Yields r.source xs r₁.source
  noneBefore : ∀ x ∈ xs, x.kind ≠ .endMarker
  next : r₁.source.next = (.ok e, ly)
  endMarker : e.kind = .endMarker
  reading : Reading g root (ts ++ dropPragmas (xs.map Lexeme.token)) r₁.automaton
  started : r₁.started = (r.started || !xs.isEmpty)
  gives : Gives flags r₁ tree r'

theorem reachesEnd_of_next {e : Lexeme} {ly : Lexer} (hgives : Gives flags r tree r')
    (h : Reading g root ts r.automaton) (hnext : r.source.next = (.ok e, ly))
    (he : e.kind = .endMarker) : ReachesEnd g root flags ts r tree r' [] e ly r where
  yields := .nil _
  noneBefore := fun _ hx => absurd hx List.not_mem_nil
  next := hnext
  endMarker := he
  reading := by rwa [List.map_nil, dropPragmas, List.filter_nil, List.append_nil]
  started := (Bool.or_false _).symm
  gives := hgives

theorem Gives.reachesEnd (hg : g.Lawful) (hgives : Gives flags r tree r')
    (h : Reading g root ts r.automaton)
    (hend : tree.tokens.getLast?.map Token.kind = some .endMarker) :
    ∃ xs e ly r₁, ReachesEnd g root flags ts r tree r' xs e ly r₁ := by
  induction hgives generalizing ts with
  | @accepted r r' tree hstep =>
    cases hnext : r.source.next with
    | mk result lx =>
      cases result with
      | error e =>
        rw [step_of_error hnext] at hstep
        cases hstep
      | ok x =>
        by_cases hx : x.kind = .endMarker
        · exact ⟨_, _, _, _, reachesEnd_of_next (.accepted hstep) h hnext hx⟩
        · rw [step_of_token flags hnext hx] at hstep
          exact absurd hstep (receive_ne_accepted hg h hend hx)
  | @more r r₁ r' tree hstep hrest ih =>
    cases hnext : r.source.next with
    | mk result lx =>
      cases result with
      | error e =>
        rw [step_of_error hnext] at hstep
        cases hstep
      | ok x =>
        by_cases hx : x.kind = .endMarker
        · exact ⟨_, _, _, _, reachesEnd_of_next (.more hstep hrest) h hnext hx⟩
        · rw [step_of_token flags hnext hx] at hstep
          have hreceived := received hg h x x.kind (r := { r with source := lx, started := true })
          obtain ⟨hsource, hstarted⟩ := source_receive x x.kind
            { r with source := lx, started := true }
          rw [hstep] at hreceived hsource hstarted
          dsimp only at hsource hstarted
          have hreading : Reading g root (ts ++ dropPragmas [x.token]) r₁.automaton := by
            cases hreceived with
            | pragma hkind =>
              rw [dropPragmas_cons_of_eq hkind, dropPragmas, List.filter_nil, List.append_nil]
              exact h
            | more hreading hkind => rwa [dropPragmas_cons_of_ne hkind]
          obtain ⟨xs, e, ly, r₂, hreaches⟩ := ih hreading hend
          refine ⟨x :: xs, e, ly, r₂, ?_, ?_, hreaches.next, hreaches.endMarker, ?_, ?_,
            hreaches.gives⟩
          · exact .cons hnext (hsource ▸ hreaches.yields)
          · intro y hy
            rcases List.mem_cons.1 hy with rfl | hy
            · exact hx
            · exact hreaches.noneBefore y hy
          · have hreading' := hreaches.reading
            rwa [List.append_assoc, ← dropPragmas_append] at hreading'
          · rw [hreaches.started, hstarted, List.isEmpty_cons, Bool.not_false, Bool.or_true,
              Bool.true_or]

/-- An end marker that comes where no token was read since the last one ends the tree. -/
theorem Gives.tokens_of_fresh (hg : g.Lawful) (he : g.EndMarked root)
    (hgives : Gives flags r tree r') (h : Reading g root ts r.automaton)
    (hstarted : r.started = false) {cur : Cursor} {ly : Lexer}
    (hnext : r.source.next = (.ok (cur.bare .endMarker), ly)) :
    tree.tokens = ts ++ [.added .endMarker cur.line.toNat] := by
  have hstep := step_of_fresh flags (r := r) hnext rfl hstarted
  cases hgives with
  | accepted haccepted =>
    have hreceived := received hg h (cur.bare .endMarker) .endMarker
      (r := { r with source := ly, started := true })
    rw [← hstep, haccepted] at hreceived
    cases hreceived with
    | accepted hsound => exact hsound.tokens
  | more hmore _ =>
    rw [hstep, receive_eq_more_iff (by decide) (by decide)] at hmore
    obtain ⟨automaton, hfeed, _⟩ := hmore
    exact absurd (congrArg Prod.fst hfeed) (feed_endMarker_ne_more hg he h rfl)

/-- One that comes behind tokens is read as a newline, and the blocks are closed. -/
theorem Gives.more_of_end (hg : g.Lawful) (hgives : Gives flags r tree r')
    (h : Reading g root ts r.automaton)
    (hend : tree.tokens.getLast?.map Token.kind = some .endMarker) (hstarted : r.started = true)
    {cur : Cursor} {ly : Lexer} (hnext : r.source.next = (.ok (cur.bare .endMarker), ly)) :
    ∃ r₁, Gives flags r₁ tree r' ∧ r₁.source = closeBlocks flags ly ∧ r₁.started = false ∧
      Reading g root (ts ++ [.added .newline cur.line.toNat]) r₁.automaton := by
  have hstep := step_of_end flags (r := r) hnext rfl hstarted
  cases hgives with
  | accepted haccepted =>
    exact absurd (hstep.symm.trans haccepted) (receive_ne_accepted hg h hend (by decide))
  | @more _ r₁ _ _ hmore hrest =>
    rw [hstep, receive_eq_more_iff (by decide) (by decide)] at hmore
    obtain ⟨automaton, hfeed, rfl⟩ := hmore
    exact ⟨_, hrest, rfl, rfl, reading_of_feed hg h hfeed⟩

/-- A dedent that was queued is read. -/
theorem Gives.more_of_dedent (hg : g.Lawful) (hgives : Gives flags r tree r')
    (h : Reading g root ts r.automaton)
    (hend : tree.tokens.getLast?.map Token.kind = some .endMarker)
    {cur : Cursor} {ly : Lexer} (hnext : r.source.next = (.ok (cur.bare .dedent), ly)) :
    ∃ r₁, Gives flags r₁ tree r' ∧ r₁.source = ly ∧ r₁.started = true ∧
      Reading g root (ts ++ [.added .dedent cur.line.toNat]) r₁.automaton := by
  have hkind : (cur.bare .dedent).kind ≠ .endMarker := Kind.noConfusion
  have hstep := step_of_token flags (r := r) hnext hkind
  cases hgives with
  | accepted haccepted =>
    exact absurd (hstep.symm.trans haccepted) (receive_ne_accepted hg h hend hkind)
  | @more _ r₁ _ _ hmore hrest =>
    have hpragma : (cur.bare .dedent).kind ≠ .typeIgnore := Kind.noConfusion
    have hne : (cur.bare .dedent).kind ≠ .notEqual := Kind.noConfusion
    rw [hstep, receive_eq_more_iff hpragma hne] at hmore
    obtain ⟨automaton, hfeed, rfl⟩ := hmore
    exact ⟨_, hrest, rfl, rfl, reading_of_feed hg h hfeed⟩

/-- The end of the text, where no block is open but for the dedents that are queued. -/
theorem Gives.tokens_of_atEnd (hg : g.Lawful) (he : g.EndMarked root)
    (hgives : Gives flags r tree r') (h : Reading g root ts r.automaton)
    (hend : tree.tokens.getLast?.map Token.kind = some .endMarker) (hatEnd : r.source.AtEnd)
    (hdepth : r.source.indents.depth = 0) {n : Nat} (hn : r.source.pendingDedents = n)
    (hstarted : r.started = true ∨ 0 < n) {line : Nat} (hline : r.source.cursor.line.toNat = line) :
    tree.tokens = ts ++ (List.replicate n (.added .dedent line) ++
      [.added .newline line, .added .endMarker line]) := by
  induction n generalizing r ts with
  | zero =>
    obtain ⟨ly, hnext, hatEnd', hnone, hcursor, hindents⟩ := hatEnd.next_endMarker hn
    obtain ⟨r₁, hgives₁, hsource, hstarted₁, hreading₁⟩ :=
      hgives.more_of_end hg h hend (hstarted.resolve_right (Nat.lt_irrefl 0)) hnext
    have hkept : closeBlocks flags ly = ly := closeBlocks_of_kept fun hopen => by
      rw [hindents, hdepth] at hopen
      exact absurd hopen.1 (Nat.lt_irrefl 0)
    rw [hkept] at hsource
    rw [← hsource] at hatEnd' hnone hcursor
    obtain ⟨lz, hnext', _⟩ := hatEnd'.next_endMarker hnone
    rw [hgives₁.tokens_of_fresh hg he hreading₁ hstarted₁ hnext', hcursor, hline,
      List.append_assoc]
    rfl
  | succ n ih =>
    obtain ⟨r₁, hgives₁, hsource, hstarted₁, hreading₁⟩ :=
      hgives.more_of_dedent hg h hend (hatEnd.next_dedent hn)
    have hrest := ih hgives₁ hreading₁ (by rw [hsource]; exact hatEnd.queued n)
      (by rw [hsource]; exact hdepth) (by rw [hsource]) (Or.inl hstarted₁)
      (by rw [hsource]; exact hline)
    rw [hrest, hline, List.append_assoc]
    rfl

/-- A tree of a grammar of blocks leaves none open. -/
theorem rise_of_sound {level : Symbol → Nat → Int} (hbalanced : g.Balanced level)
    (h : Sound g root ts tree) : rise tree.tokens = 0 :=
  (hbalanced.rise_tokens h.derivation).2 root h.kind

/-- The blocks that a text leaves open are those that its tokens have opened and not closed. -/
theorem ReachesEnd.rise {xs : List Lexeme} {e : Lexeme} {ly : Lexer} {r₁ : Run Lexer Pushdown}
    (h : ReachesEnd g root flags ts r tree r' xs e ly r₁) (hlevel : r.source.level = 0) :
    rise (dropPragmas (xs.map Lexeme.token)) = ly.indents.depth := by
  obtain ⟨hatEnd, hnone, _⟩ := atEnd_of_next h.next h.endMarker
  have hyields := h.yields.level
  have hnext := next_level h.next
  rw [h.endMarker, hatEnd.level hnone] at hnext
  rw [rise_dropPragmas, hnext, hyields, hlevel, Int.zero_add]
  exact (Int.add_zero _).symm

/-- The tokens of the tree that a run gives from the start of a text on. There is none if blocks
are left open that must not be closed. -/
theorem Gives.tokens_eq {level : Symbol → Nat → Int} (hg : g.Lawful) (he : g.EndMarked root)
    (hbalanced : g.Balanced level) (hgives : Gives flags r tree r')
    (h : Reading g root [] r.automaton) (hstarted : r.started = false)
    (hlevel : r.source.level = 0)
    (hend : tree.tokens.getLast?.map Token.kind = some .endMarker) :
    ∃ xs e ly, Yields r.source (xs ++ [e]) ly ∧ e.kind = .endMarker ∧
      (∀ x ∈ xs, x.kind ≠ .endMarker) ∧
      tree.tokens = dropPragmas (xs.map Lexeme.token) ++
        closing e.line (!xs.isEmpty) ly.indents.depth ∧
      (flags.dontImplyDedent = true → ly.indents.depth = 0) := by
  obtain ⟨ts', hsound⟩ := sound_of_gives hg hgives h
  obtain ⟨xs, e, ly, r₁, hreaches⟩ := hgives.reachesEnd hg h hend
  obtain ⟨hatEnd, hnone, hcursor⟩ := atEnd_of_next hreaches.next hreaches.endMarker
  have hyields := hreaches.yields.append (.cons hreaches.next (.nil ly))
  have hnext := hreaches.next
  have hreading := hreaches.reading
  rw [hcursor] at hnext
  rw [List.nil_append] at hreading
  have hline : e.line = ly.cursor.line.toNat := by rw [hcursor]; rfl
  refine ⟨xs, e, ly, hyields, hreaches.endMarker, hreaches.noneBefore, ?_⟩
  have hstarted₁ := hreaches.started
  rw [hstarted, Bool.false_or] at hstarted₁
  rw [hline]
  cases hempty : xs.isEmpty with
  | true =>
    rw [hempty] at hstarted₁
    rw [hreaches.gives.tokens_of_fresh hg he hreading hstarted₁ hnext]
    refine ⟨rfl, fun _ => ?_⟩
    have hrise := hreaches.rise hlevel
    rw [List.isEmpty_iff.1 hempty] at hrise
    exact (Int.natCast_eq_zero.1 hrise.symm)
  | false =>
    rw [hempty] at hstarted₁
    obtain ⟨r₂, hgives₂, hsource, hstarted₂, hreading₂⟩ :=
      hreaches.gives.more_of_end hg hreading hend hstarted₁ hnext
    by_cases hopen : 0 < ly.indents.depth ∧ flags.dontImplyDedent = false
    · rw [closeBlocks_of_open hopen.2 hopen.1] at hsource
      rw [hgives₂.tokens_of_atEnd hg he hreading₂ hend
        (by rw [hsource]; exact hatEnd.queueDedents _) (by rw [hsource]; rfl) (by rw [hsource]; rfl) (Or.inr hopen.1) (by rw [hsource]),
        closing, Bool.not_false, if_pos rfl, if_neg (Nat.ne_of_gt hopen.1), List.append_assoc]
      refine ⟨rfl, fun hkept => ?_⟩
      rw [hopen.2] at hkept
      cases hkept
    · rw [closeBlocks_of_kept hopen] at hsource
      obtain ⟨lz, hnext', _⟩ := hatEnd.next_endMarker hnone
      rw [← hsource] at hnext'
      have htokens := hgives₂.tokens_of_fresh hg he hreading₂ hstarted₂ hnext'
      rw [hsource] at htokens
      -- the tree leaves no block open, and so the text does not either
      have hdepth : (ly.indents.depth : Int) = 0 := by
        have hrise := rise_of_sound hbalanced hsound
        rwa [htokens, rise_append, rise_append, hreaches.rise hlevel] at hrise
      rw [htokens, Int.natCast_eq_zero.1 hdepth, List.append_assoc]
      exact ⟨rfl, fun _ => rfl⟩

end Run

namespace Parse

open Grammar Pushdown Run Lexer

variable {options : Options} {filename? encoding? : Option String} {s : Source} {tree : Node}

theorem attempt?_everyToken {g : Grammar} {ends : List Symbol} {level : Symbol → Nat → Int}
    (hg : g.Lawful) (he : g.LineEnds .fileInput ends) (hbalanced : g.Balanced level)
    {o : Outcome Lexer Pushdown} (h : attempt? g .file options filename? s = some o)
    (ho : o.result = .ok tree) :
    ∃ body last lx, (ofSource options.flags.asyncAlways s).tokens = (.ok (body ++ [last]), lx) ∧
      last.kind = .endMarker ∧
      dropPragmas tree.everyToken =
        dropPragmas body ++ closing last.line (!body.isEmpty) lx.indents.depth := by
  obtain ⟨automaton, pragmas, tree₀, r, hstart, _, hgives, hfinish, _⟩ := attempt?_eq_ok h ho
  have hreading := reading_opening hstart options s pragmas
  obtain ⟨ts, hsound⟩ := sound_of_gives hg hgives hreading
  obtain ⟨xs, e, ly, hyields, hkind, hxs, htokens, _⟩ :=
    hgives.tokens_eq hg he.endMarked hbalanced hreading rfl rfl (endMarker_of_finish hsound hfinish)
  have hdrained := tokens_of_yields hyields hkind hxs
  rw [List.map_append, List.map_singleton] at hdrained
  refine ⟨xs.map Lexeme.token, e.token, ly, hdrained, hkind, ?_⟩
  · have hpragmas : dropPragmas (r.pragmas.toList.map pragmaToken) = [] := by
      refine List.filter_eq_nil_iff.2 fun t ht => ?_
      obtain ⟨p, _, rfl⟩ := List.mem_map.1 ht
      simp [pragmaToken]
    rw [everyToken_of_finish hg he hsound hfinish, ← hsound.tokens, htokens, dropPragmas_append,
      dropPragmas_append, hpragmas, dropPragmas_dropPragmas, dropPragmas_closing, List.append_nil,
      List.isEmpty_map]
    rfl

/-- The tree of a module holds the tokens of its text, but for pragmas, and behind them what closes
the last line and the blocks that are open there. -/
theorem everyToken_of_bytes {input : List UInt8}
    (h : (bytes .file options filename? encoding? input).1 = .ok tree) :
    ∃ s body last lx, Source.decode options.flags.decodeMode encoding? input = .ok s ∧
      (ofSource options.flags.asyncAlways s).tokens = (.ok (body ++ [last]), lx) ∧
      last.kind = .endMarker ∧
      dropPragmas tree.everyToken =
        dropPragmas body ++ closing last.line (!body.isEmpty) lx.indents.depth := by
  obtain ⟨s, hs, h⟩ := bytes_eq_ok h
  obtain ⟨g, o, hgrammar, ho, htree⟩ := source_eq_ok h
  obtain ⟨g', hg', hchecked⟩ := Reference.exists_checked
  obtain rfl : g' = g := Except.ok.inj (hg'.symm.trans hgrammar)
  obtain ⟨body, last, lx, htokens, hlast, hevery⟩ :=
    attempt?_everyToken (Reference.lawful hg') hchecked.lineEnds hchecked.balanced ho htree
  exact ⟨s, body, last, lx, hs, htokens, hlast, hevery⟩

/-- A block that the end of the text leaves open. -/
theorem everyToken_of_bytes_block :
    ∃ tree, (bytes .file (Options.ofFlags Flags.unset) none none
        (Text.encode ['i', 'f', ' ', 'x', ':', '\n', ' ', 'y'])).1 = .ok tree ∧
      dropPragmas tree.everyToken =
        [⟨.word, "if", 1, some 0⟩, ⟨.word, "x", 1, some 3⟩, ⟨.colon, ":", 1, some 4⟩,
          ⟨.newline, "", 1, some 5⟩, ⟨.indent, "", 2, none⟩, ⟨.word, "y", 2, some 1⟩,
          .added .newline 2, .added .dedent 2, .added .newline 2, .added .endMarker 2] := by
  obtain ⟨tree, h⟩ := text_of_trial
    (t := ⟨.file, ['i', 'f', ' ', 'x', ':', '\n', ' ', 'y'], some []⟩) (by decide) rfl
    (by decide +kernel)
  refine ⟨tree, h, ?_⟩
  obtain ⟨s, body, last, lx, hs, htokens, _, hevery⟩ := everyToken_of_bytes h
  have hread : Source.decode (Options.ofFlags Flags.unset).flags.decodeMode none
      (Text.encode ['i', 'f', ' ', 'x', ':', '\n', ' ', 'y']) =
      .ok ⟨['i', 'f', ' ', 'x', ':', '\n', ' ', 'y'], none⟩ := by decide +kernel
  obtain rfl := Except.ok.inj (hread.symm.trans hs)
  have hdrained : (ofSource (Options.ofFlags Flags.unset).flags.asyncAlways
      ⟨['i', 'f', ' ', 'x', ':', '\n', ' ', 'y'], none⟩).tokens.1 =
      .ok ([⟨.word, "if", 1, some 0⟩, ⟨.word, "x", 1, some 3⟩, ⟨.colon, ":", 1, some 4⟩,
        ⟨.newline, "", 1, some 5⟩, ⟨.indent, "", 2, none⟩, ⟨.word, "y", 2, some 1⟩] ++
        [⟨.endMarker, "", 2, none⟩]) := by decide +kernel
  have hdepth : (ofSource (Options.ofFlags Flags.unset).flags.asyncAlways
      ⟨['i', 'f', ' ', 'x', ':', '\n', ' ', 'y'], none⟩).tokens.2.indents.depth = 1 := by
    decide +kernel
  rw [htokens] at hdrained hdepth
  obtain ⟨rfl, hlast⟩ := List.append_inj' (Except.ok.inj hdrained) rfl
  obtain rfl := List.singleton_inj.1 hlast
  dsimp only at hdepth
  rw [hevery, hdepth]
  rfl

end Parse
end Offside
