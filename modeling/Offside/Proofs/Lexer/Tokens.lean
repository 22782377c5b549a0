import Offside.Proofs.Lexer.Levels

/-!
The tokens of a lexer, one after the other. What a lexer comes to in the end does not change when a
token is taken from it.
-/

namespace Offside.Lexer

variable {lx ly : Lexer}

theorem scan_of_lexeme {x : Lexeme} (h : lx.turn = (.lexeme x, ly)) : lx.scan = (.ok x, ly) := by
  rw [scan.eq_def]
  split
  · next heq =>
    rw [h] at heq
    obtain ⟨hx, rfl⟩ := Prod.mk.inj heq
    rw [Outcome.lexeme.inj hx]
  · next heq =>
    rw [h] at heq
    cases heq
  · next heq =>
    rw [h] at heq
    cases heq

theorem scan_of_failed {e : LexError} (h : lx.turn = (.failed e, ly)) :
    lx.scan = (.error e, ly.fail e) := by
  rw [scan.eq_def]
  split
  · next heq =>
    rw [h] at heq
    cases heq
  · next heq =>
    rw [h] at heq
    obtain ⟨he, rfl⟩ := Prod.mk.inj heq
    rw [Outcome.failed.inj he]
  · next heq =>
    rw [h] at heq
    cases heq

theorem scan_of_nothing (h : lx.turn = (.nothing, ly)) : lx.scan = ly.scan := by
  rw [scan.eq_def]
  split
  · next heq =>
    rw [h] at heq
    cases heq
  · next heq =>
    rw [h] at heq
    cases heq
  · next heq =>
    rw [h] at heq
    obtain ⟨_, rfl⟩ := Prod.mk.inj heq
    rfl

theorem scan_congr (h : lx.turn = ly.turn) : lx.scan = ly.scan := by
  cases hturn : ly.turn with
  | mk o lz =>
    rw [hturn] at h
    cases o with
    | lexeme x => rw [scan_of_lexeme h, scan_of_lexeme hturn]
    | nothing => rw [scan_of_nothing h, scan_of_nothing hturn]
    | failed e => rw [scan_of_failed h, scan_of_failed hturn]

theorem next_of_failed {e : LexError} (h : lx.stop = .failed e) : lx.next = (.error e, lx) := by
  rw [next, h]

theorem next_of_not_failed (h : ∀ e, lx.stop ≠ .failed e) : lx.next = lx.leaveLine.scan := by
  unfold next
  split
  · next e he => exact absurd he (h e)
  · rfl

theorem advance_weight_le (read : List Char) (lx : Lexer) :
    (lx.advance read).weight ≤ lx.weight := by
  have hlayout : (lx.advance read).layoutWeight = lx.layoutWeight := rfl
  rw [weight_eq, weight_eq, rest_length_advance, hlayout]
  omega

theorem body_weight_le (lx : Lexer) : lx.body.2.weight ≤ lx.weight := by
  refine Nat.le_trans ?_ (advance_weight_le (lx.cursor.rest.takeWhile Text.isLayout) lx)
  unfold body
  dsimp only
  generalize lx.advance (lx.cursor.rest.takeWhile Text.isLayout) = ly
  split
  · exact Nat.le_refl _
  · next heq => exact Nat.le_of_lt (comment_readsOn heq).weight_lt
  · next heq => exact Nat.le_of_lt (continuation_readsOn heq).weight_lt
  · next heq =>
    split
    · next hbreak => exact Nat.le_of_lt (lineBreak_readsOn (heq ▸ hbreak)).weight_lt
    · split
      · next hliteral =>
        exact Nat.le_of_lt (literal_readsOn (heq ▸ hliteral) (by simp [heq])).weight_lt
      · exact Nat.le_of_lt (plain_readsOn heq (by simp)).weight_lt

theorem turn_weight_le {x : Lexeme} (h : lx.turn = (.lexeme x, ly)) : ly.weight ≤ lx.weight := by
  unfold turn at h
  split at h
  · next hdue =>
    obtain ⟨_, rfl⟩ := Prod.mk.inj h
    exact Nat.le_of_lt (takeDue?_weight_lt hdue)
  · next hdue =>
    split at h
    · cases h
    · next lz hmeasure =>
      have hle : lz.weight ≤ lx.weight := by
        split at hmeasure
        · exact measureLine_weight_le hmeasure (nothingDue hdue)
        · exact Nat.le_of_eq (congrArg weight (Prod.mk.inj hmeasure).2).symm
      refine Nat.le_trans ?_ hle
      split at h
      · next hdue' =>
        obtain ⟨_, rfl⟩ := Prod.mk.inj h
        exact Nat.le_of_lt (takeDue?_weight_lt hdue')
      · have hbody := body_weight_le lz
        rwa [h] at hbody

/-- A lexeme is handed out by a turn, behind turns that give nothing. What holds where the line is
left, and is kept by these, holds before that turn. -/
theorem exists_turn_of_next {x : Lexeme} {motive : Lexer → Prop} (h : lx.next = (.ok x, ly))
    (hstart : motive lx.leaveLine)
    (hkeeps : ∀ {lx ly : Lexer}, motive lx → lx.turn = (.nothing, ly) → motive ly) :
    ∃ lz, motive lz ∧ lz.turn = (.lexeme x, ly) := by
  have hscan : ∀ lx : Lexer, motive lx → lx.scan = (.ok x, ly) →
      ∃ lz, motive lz ∧ lz.turn = (.lexeme x, ly) := by
    intro lx hstart h
    fun_induction scan lx with
    | case1 lx y lz hturn =>
      obtain ⟨hy, rfl⟩ := Prod.mk.inj h
      obtain rfl := Except.ok.inj hy
      exact ⟨lx, hstart, hturn⟩
    | case2 => cases h
    | case3 lx lz hturn _ ih => exact ih (hkeeps hstart hturn) h
  unfold next at h
  split at h
  · cases h
  · exact hscan lx.leaveLine hstart h

/-- No token makes the weight larger, not even the end marker. -/
theorem next_weight_le {x : Lexeme} (h : lx.next = (.ok x, ly)) : ly.weight ≤ lx.weight := by
  obtain ⟨lz, hle, hturn⟩ := exists_turn_of_next (motive := fun lz => lz.weight ≤ lx.weight) h
    (Nat.le_of_eq (leaveLine_weight lx)) fun hle hturn =>
      Nat.le_trans (Nat.le_of_lt (turn_weight_lt hturn trivial)) hle
  exact Nat.le_trans (turn_weight_le hturn) hle

theorem positive_scan (h : lx.indents.Positive) : lx.scan.2.indents.Positive := by
  fun_induction scan lx with
  | case1 lx x ly hturn =>
    have hpositive := positive_turn h
    rwa [hturn] at hpositive
  | case2 lx e ly hturn =>
    have hpositive := positive_turn h
    rwa [hturn] at hpositive
  | case3 lx ly hturn _ ih =>
    have hpositive := positive_turn h
    rw [hturn] at hpositive
    exact ih hpositive

theorem stop_leaveLine (lx : Lexer) : lx.leaveLine.stop = lx.stop := by
  unfold leaveLine
  split <;> rfl

theorem indents_leaveLine (lx : Lexer) : lx.leaveLine.indents = lx.indents := by
  unfold leaveLine
  split <;> rfl

/-- Open levels stay right of the first column. -/
theorem positive_next (h : lx.indents.Positive) : lx.next.2.indents.Positive := by
  unfold next
  split
  · exact h
  · exact positive_scan (by rwa [indents_leaveLine])

theorem drainFrom_of_error {e : LexError} (h : lx.next = (.error e, ly)) (read : List Token) :
    drainFrom read lx = (read.reverse, some e, ly) := by
  rw [drainFrom.eq_def]
  split
  · next heq =>
    rw [h] at heq
    obtain ⟨he, rfl⟩ := Prod.mk.inj heq
    rw [Except.error.inj he]
  · next heq =>
    rw [h] at heq
    cases heq

theorem drainFrom_of_end {x : Lexeme} (h : lx.next = (.ok x, ly)) (hx : x.kind = .endMarker)
    (read : List Token) : drainFrom read lx = ((x.token :: read).reverse, none, ly) := by
  rw [drainFrom.eq_def]
  split
  · next heq =>
    rw [h] at heq
    cases heq
  · next heq =>
    rw [h] at heq
    obtain ⟨hy, rfl⟩ := Prod.mk.inj heq
    obtain rfl := Except.ok.inj hy
    rw [dif_pos hx]

theorem drainFrom_of_token {x : Lexeme} (h : lx.next = (.ok x, ly)) (hx : x.kind ≠ .endMarker)
    (read : List Token) : drainFrom read lx = drainFrom (x.token :: read) ly := by
  rw [drainFrom.eq_def]
  split
  · next heq =>
    rw [h] at heq
    cases heq
  · next heq =>
    rw [h] at heq
    obtain ⟨hy, rfl⟩ := Prod.mk.inj heq
    obtain rfl := Except.ok.inj hy
    rw [dif_neg hx]

theorem drainFrom_congr (h : lx.next = ly.next) (ts : List Token) :
    drainFrom ts lx = drainFrom ts ly := by
  cases hnext : ly.next with
  | mk r lz =>
    rw [hnext] at h
    cases r with
    | error e => rw [drainFrom_of_error h, drainFrom_of_error hnext]
    | ok x =>
      by_cases hend : x.kind = .endMarker
      · rw [drainFrom_of_end h hend, drainFrom_of_end hnext hend]
      · rw [drainFrom_of_token h hend, drainFrom_of_token hnext hend]

/-- What is read in the end does not depend on what was read before. -/
theorem drainFrom_snd (read : List Token) (lx : Lexer) :
    (drainFrom read lx).2 = lx.drain.2 := by
  unfold drain
  cases hnext : lx.next with
  | mk r ly =>
    cases r with
    | error e => rw [drainFrom_of_error hnext, drainFrom_of_error hnext]
    | ok x =>
      by_cases hx : x.kind = .endMarker
      · rw [drainFrom_of_end hnext hx, drainFrom_of_end hnext hx]
      · have hlt := next_weight_lt hnext hx
        rw [drainFrom_of_token hnext hx, drainFrom_of_token hnext hx, drainFrom_snd _ ly,
          drainFrom_snd _ ly]
termination_by lx.weight

/-- How a lexer ends: with an error or without one, and how it is then left. -/
theorem drain_of_token {x : Lexeme} (h : lx.next = (.ok x, ly)) (hx : x.kind ≠ .endMarker) :
    lx.drain.2 = ly.drain.2 := by
  rw [drain, drainFrom_of_token h hx, drainFrom_snd]

theorem tokens_eq_error_iff {e : LexError} :
    lx.tokens.1 = .error e ↔ lx.drain.2.1 = some e := by
  unfold tokens
  obtain ⟨ts, e?, ly⟩ := lx.drain
  cases e? <;> simp

theorem tokens_snd (lx : Lexer) : lx.tokens.2 = lx.drain.2.2 := by
  unfold tokens
  obtain ⟨ts, e?, ly⟩ := lx.drain
  cases e? <;> rfl

/-- Lexemes that are handed out one after the other. -/
inductive Yields : Lexer → List Lexeme → Lexer → Prop
  | nil (lx : Lexer) : Yields lx [] lx
  | cons {lx ly lz : Lexer} {x : Lexeme} {xs : List Lexeme} (h : lx.next = (.ok x, ly))
      (hrest : Yields ly xs lz) : Yields lx (x :: xs) lz

theorem Yields.append {lz : Lexer} {xs ys : List Lexeme} (h : Yields lx xs ly)
    (h' : Yields ly ys lz) : Yields lx (xs ++ ys) lz := by
  induction h with
  | nil => exact h'
  | cons hnext _ ih => exact .cons hnext (ih h')

theorem Yields.append_inv {lz : Lexer} {xs ys : List Lexeme} (h : Yields lx (xs ++ ys) lz) :
    ∃ ly, Yields lx xs ly ∧ Yields ly ys lz := by
  induction xs generalizing lx with
  | nil => exact ⟨lx, .nil lx, h⟩
  | cons x xs ih =>
    cases h with
    | cons hnext hrest =>
      obtain ⟨ly, hxs, hys⟩ := ih hrest
      exact ⟨ly, .cons hnext hxs, hys⟩

theorem exists_yields_of_drainFrom {lx ly : Lexer} {ts read : List Token}
    (h : drainFrom read lx = (ts, none, ly)) :
    ∃ xs e, Yields lx (xs ++ [e]) ly ∧ e.kind = .endMarker ∧ (∀ x ∈ xs, x.kind ≠ .endMarker) ∧
      ts = read.reverse ++ (xs ++ [e]).map Lexeme.token := by
  cases hnext : lx.next with
  | mk r lz =>
    cases r with
    | error e =>
      rw [drainFrom_of_error hnext] at h
      cases h
    | ok x =>
      by_cases hx : x.kind = .endMarker
      · rw [drainFrom_of_end hnext hx] at h
        cases h
        refine ⟨[], x, .cons hnext (.nil _), hx, fun y hy => absurd hy List.not_mem_nil, ?_⟩
        rw [List.reverse_cons]
        rfl
      · have hlt := next_weight_lt hnext hx
        rw [drainFrom_of_token hnext hx] at h
        obtain ⟨xs, e, hyields, he, hxs, rfl⟩ := exists_yields_of_drainFrom h
        refine ⟨x :: xs, e, .cons hnext hyields, he, ?_, ?_⟩
        · intro y hy
          rcases List.mem_cons.1 hy with rfl | hy
          · exact hx
          · exact hxs y hy
        · rw [List.reverse_cons, List.append_assoc]
          rfl
termination_by lx.weight

/-- The tokens of a text that is read to its end marker are those of the lexemes handed out. -/
theorem exists_yields_of_tokens {ts : List Token} (h : lx.tokens = (.ok ts, ly)) :
    ∃ xs e, Yields lx (xs ++ [e]) ly ∧ e.kind = .endMarker ∧ (∀ x ∈ xs, x.kind ≠ .endMarker) ∧
      ts = (xs ++ [e]).map Lexeme.token := by
  unfold tokens at h
  cases hdrain : lx.drain with
  | mk us rest =>
    obtain ⟨error?, lz⟩ := rest
    rw [hdrain] at h
    cases error? with
    | some e => cases h
    | none =>
      obtain ⟨hts, rfl⟩ := Prod.mk.inj h
      obtain rfl := Except.ok.inj hts
      exact exists_yields_of_drainFrom hdrain

theorem drainFrom_of_yields {xs : List Lexeme} {e : Lexeme} (h : Yields lx (xs ++ [e]) ly)
    (he : e.kind = .endMarker) (hxs : ∀ x ∈ xs, x.kind ≠ .endMarker) (read : List Token) :
    drainFrom read lx = (read.reverse ++ (xs ++ [e]).map Lexeme.token, none, ly) := by
  induction xs generalizing lx read with
  | nil =>
    cases h with
    | cons hnext hrest =>
      cases hrest
      rw [drainFrom_of_end hnext he, List.reverse_cons]
      rfl
  | cons x xs ih =>
    cases h with
    | cons hnext hrest =>
      rw [drainFrom_of_token hnext (hxs x List.mem_cons_self),
        ih hrest (fun y hy => hxs y (List.mem_cons_of_mem _ hy)), List.reverse_cons,
        List.append_assoc]
      rfl

theorem tokens_of_yields {xs : List Lexeme} {e : Lexeme} (h : Yields lx (xs ++ [e]) ly)
    (he : e.kind = .endMarker) (hxs : ∀ x ∈ xs, x.kind ≠ .endMarker) :
    lx.tokens = (.ok ((xs ++ [e]).map Lexeme.token), ly) := by
  rw [tokens, drain, drainFrom_of_yields h he hxs]
  rfl

end Offside.Lexer
