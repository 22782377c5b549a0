import Offside.Proofs.Lexer.Balance

/-!
Where a lexer stops. It runs on until it hands out the end marker, and then knows whether the text
ended inside brackets; whoever asks again, or for dedents, finds it at the end as before.
-/

namespace Offside.Lexer

variable {lx ly : Lexer} {x : Lexeme}

theorem stop_takeDue? (h : lx.takeDue? = some (x, ly)) : ly.stop = lx.stop := by
  unfold takeDue? at h
  split at h
  · obtain ⟨_, rfl⟩ := Prod.mk.inj (Option.some.inj h)
    rfl
  · split at h
    · obtain ⟨_, rfl⟩ := Prod.mk.inj (Option.some.inj h)
      rfl
    · cases h

theorem Settles.stop (h : lx.Settles ly) : ly.stop = lx.stop := by
  rcases h with ⟨_, hmeasure⟩ | ⟨_, rfl⟩
  · have hframe := measureLine_frame lx
    rw [hmeasure] at hframe
    dsimp only at hframe
    rw [hframe]
    rfl
  · rfl

theorem stop_afterPragma (lx : Lexer) : lx.afterPragma.stop = lx.stop := by
  unfold afterPragma
  split
  · split <;> rfl
  · rfl

/-- How a text ends that leaves so many brackets open. -/
def stopAt (nesting : Nat) : StopReason := if 0 < nesting then .exhausted else .finished

/-- Only the end marker gives a lexer a reason to stop. -/
inductive Stops (stop : StopReason) : Outcome × Lexer → Prop
  | running {o : Outcome} {ly : Lexer} (h : ly.stop = stop)
      (hkind : ∀ x, o = .lexeme x → x.kind ≠ .endMarker) : Stops stop (o, ly)
  | ended {x : Lexeme} {ly : Lexer} (hkind : x.kind = .endMarker)
      (h : ly.stop = stopAt ly.nesting) : Stops stop (.lexeme x, ly)
  | failed {e : LexError} {ly : Lexer} : Stops stop (.failed e, ly)

theorem stops_of_lexeme {stop : StopReason} (h : ly.stop = stop) (hkind : x.kind ≠ .endMarker) :
    Stops stop (.lexeme x, ly) :=
  .running h fun _ hx => Outcome.lexeme.inj hx ▸ hkind

theorem stops_of_nothing {stop : StopReason} (h : ly.stop = stop) : Stops stop (.nothing, ly) :=
  .running h fun _ hx => by cases hx

theorem Piece.stops {r : Outcome × Lexer} (h : Piece lx r) : Stops lx.stop r := by
  have hlexeme : ∀ {kind : Kind} {read : List Char} {cur : Cursor} {lz : Lexer},
      lz.stop = lx.stop → kind ≠ .endMarker → Stops lx.stop (.lexeme (cur.lexeme kind read), lz) :=
    fun hstop hkind => stops_of_lexeme hstop (by rwa [Cursor.kind_lexeme])
  cases h with
  | ended => exact .ended rfl rfl
  | comment => exact stops_of_nothing rfl
  | pragma => exact hlexeme (stop_afterPragma _) (by decide)
  | blankBreak => exact stops_of_nothing rfl
  | newline => exact hlexeme rfl (by decide)
  | joined => exact stops_of_nothing rfl
  | brokenOff => exact .failed
  | stray => exact .failed
  | literal => exact hlexeme rfl (by decide)
  | unended => exact .failed
  | @plain kind kind' read rest ly hrest hscan hclassify =>
    have hplain := isPlain_classify (Plain.plain_of_scan? hscan).1 read rest
      ((lx.advance read).nest kind)
    rw [hclassify] at hplain
    refine hlexeme ?_ (ne_endMarker_of_isPlain hplain)
    rw [plain_frame hclassify]
    rfl
  | bad => exact .failed

theorem turn_stops (lx : Lexer) : Stops lx.stop lx.turn := by
  have hturned := turned lx
  generalize lx.turn = r at hturned
  cases hturned with
  | due h => exact stops_of_lexeme (stop_takeDue? h) (kind_of_takeDue? h)
  | misplaced => exact .failed
  | indented _ hsettles h =>
    exact stops_of_lexeme ((stop_takeDue? h).trans hsettles.stop) (kind_of_takeDue? h)
  | @read ly r _ hsettles _ hpiece =>
    have hstop : ly.skipLayout.stop = lx.stop := hsettles.stop
    rw [← hstop]
    exact hpiece.stops

/-- Handing out a lexeme changes nothing about when to stop, unless it is the end marker. -/
theorem next_stops (h : lx.next = (.ok x, ly)) : Stops lx.stop (.lexeme x, ly) := by
  obtain ⟨lz, hstop, hturn⟩ := exists_turn_of_next (motive := fun lz => lz.stop = lx.stop) h
    (stop_leaveLine lx) fun {ly lz} hstop hturn => by
      have hstops := turn_stops ly
      rw [hturn] at hstops
      cases hstops with
      | running hstop' => exact hstop'.trans hstop
  rw [← hturn, ← hstop]
  exact turn_stops lz

theorem stop_of_next (h : lx.next = (.ok x, ly)) (hx : x.kind ≠ .endMarker) :
    ly.stop = lx.stop := by
  cases next_stops h with
  | running hstop => exact hstop
  | ended hkind => exact absurd hkind hx

/-- The end marker was handed out, and it is known how the text ended. -/
structure Ended (lx : Lexer) : Prop extends AtEnd lx where
  stop : lx.stop = stopAt lx.nesting

theorem ended_of_next (h : lx.next = (.ok x, ly)) (hx : x.kind = .endMarker) : ly.Ended := by
  obtain ⟨hatEnd, _⟩ := atEnd_of_next h hx
  cases next_stops h with
  | running _ hkind => exact absurd hx (hkind x rfl)
  | ended _ hstop => exact ⟨hatEnd, hstop⟩

namespace Ended

theorem queueDedents (h : lx.Ended) (n : Nat) : (lx.queueDedents n).Ended :=
  ⟨h.toAtEnd.queueDedents n, h.stop⟩

/-- Whatever else is asked for is there, and leaves the lexer where it is. -/
theorem next (h : lx.Ended) :
    ∃ x ly, lx.next = (.ok x, ly) ∧ ly.Ended ∧ ly.stop = lx.stop := by
  cases hn : lx.pendingDedents with
  | zero =>
    have hnext := h.next_of_drained hn
    have hended := ended_of_next hnext rfl
    exact ⟨_, _, hnext, hended, hended.stop.trans h.stop.symm⟩
  | succ n =>
    have hnext := h.next_dedent hn
    exact ⟨_, _, hnext, ⟨h.queued n, h.stop⟩, rfl⟩

end Ended

theorem ended_of_yields {xs : List Lexeme} {e : Lexeme} (h : Yields lx (xs ++ [e]) ly)
    (he : e.kind = .endMarker) : ly.Ended := by
  obtain ⟨lz, _, hlast⟩ := h.append_inv
  cases hlast with
  | cons hnext hrest =>
    cases hrest
    exact ended_of_next hnext he

/-- A lexer can be read to the end of its text, and stops there for this reason. -/
inductive StopsAt (stop : StopReason) : Lexer → Prop
  | ended {lx : Lexer} (h : lx.Ended) (hstop : lx.stop = stop) : StopsAt stop lx
  | read {lx ly : Lexer} {x : Lexeme} (hrunning : lx.stop = .running)
      (hnext : lx.next = (.ok x, ly)) (h : StopsAt stop ly) : StopsAt stop lx

namespace StopsAt

variable {stop : StopReason}

theorem next (h : StopsAt stop lx) : ∃ x ly, lx.next = (.ok x, ly) ∧ StopsAt stop ly := by
  cases h with
  | ended hended hstop =>
    obtain ⟨x, ly, hnext, hended', hsame⟩ := hended.next
    exact ⟨x, ly, hnext, .ended hended' (hsame.trans hstop)⟩
  | read _ hnext h => exact ⟨_, _, hnext, h⟩

theorem running_or_eq (h : StopsAt stop lx) : lx.stop = .running ∨ lx.stop = stop := by
  cases h with
  | ended _ hstop => exact Or.inr hstop
  | read hrunning => exact Or.inl hrunning

end StopsAt

theorem stopsAt_of_yields {xs : List Lexeme} {e : Lexeme} (h : Yields lx (xs ++ [e]) ly)
    (hrunning : lx.stop = .running) (he : e.kind = .endMarker)
    (hxs : ∀ x ∈ xs, x.kind ≠ .endMarker) : StopsAt ly.stop lx := by
  induction xs generalizing lx with
  | nil =>
    cases h with
    | cons hnext hrest =>
      cases hrest
      exact .read hrunning hnext (.ended (ended_of_next hnext he) rfl)
  | cons x xs ih =>
    cases h with
    | cons hnext hrest =>
      obtain ⟨hx, hxs⟩ := List.forall_mem_cons.1 hxs
      exact .read hrunning hnext (ih hrest ((stop_of_next hnext hx).trans hrunning) hxs)

end Offside.Lexer
