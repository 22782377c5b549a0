import Offside.Proofs.Lexer.Balance
import Offside.Proofs.Lexer.View
import Offside.Proofs.Source.Sizes

/-!
The calls of a lexer come to an end. Each one ends, since its turns use up what the lexer weighs.
The tokens end, since those before the end marker use it up too, and a fresh lexer weighs three
times its text. From the end marker on a lexer only counts the dedents that it is told to hand out.
-/

namespace Offside.Lexer

open Text

variable {lx ly : Lexer} {x : Lexeme}

/-- The turns up to an answer, cut off after so many. -/
def scanWithin : Nat → Lexer → Option (Except LexError Lexeme × Lexer)
  | 0, _ => none
  | n + 1, lx =>
    match lx.turn with
    | (.lexeme x, ly) => some (.ok x, ly)
    | (.failed e, ly) => some (.error e, ly.fail e)
    | (.nothing, ly) => scanWithin n ly

/-- A call that is cut off after so many turns. -/
def nextWithin (n : Nat) (lx : Lexer) : Option (Except LexError Lexeme × Lexer) :=
  match lx.stop with
  | .failed e => some (.error e, lx)
  | _ => lx.leaveLine.scanWithin n

theorem scanWithin_of_weight_lt {n : Nat} (h : lx.weight < n) : lx.scanWithin n = some lx.scan := by
  induction n generalizing lx with
  | zero => exact absurd h (Nat.not_lt_zero _)
  | succ n ih =>
    cases hturn : lx.turn with
    | mk o ly =>
      cases o with
      | lexeme x => simp only [scanWithin, hturn, scan_of_lexeme hturn]
      | failed e => simp only [scanWithin, hturn, scan_of_failed hturn]
      | nothing =>
        have hlt : ly.weight < lx.weight := turn_weight_lt hturn trivial
        simp only [scanWithin, hturn, scan_of_nothing hturn]
        apply ih
        omega

/-- No call takes more turns than the lexer weighs, and one. -/
theorem nextWithin_weight (lx : Lexer) : lx.nextWithin (lx.weight + 1) = some lx.next := by
  have hscan : lx.leaveLine.scanWithin (lx.weight + 1) = some lx.leaveLine.scan := by
    apply scanWithin_of_weight_lt
    rw [leaveLine_weight]
    omega
  cases hstop : lx.stop <;> simp only [nextWithin, next, hstop, hscan]

/-- A lexer after so many calls. -/
def afterCalls (calls : Nat) (lx : Lexer) : Lexer :=
  (List.replicate calls Request.next).foldl Lexer.after lx

theorem afterCalls_succ (calls : Nat) (lx : Lexer) :
    lx.afterCalls (calls + 1) = lx.next.2.afterCalls calls := rfl

/-- An answer that ends the tokens. -/
def IsLast : Except LexError Lexeme → Prop
  | .ok x => x.kind = .endMarker
  | .error _ => True

/-- A lexer has no more tokens than it weighs. -/
theorem exists_isLast (lx : Lexer) : ∃ calls ≤ lx.weight, IsLast (lx.afterCalls calls).next.1 := by
  induction hweight : lx.weight using Nat.strong_induction_on generalizing lx with
  | h weight ih =>
    subst hweight
    by_cases hlast : IsLast lx.next.1
    · exact ⟨0, Nat.zero_le _, hlast⟩
    · cases hnext : lx.next with
      | mk answer ly =>
        rw [hnext] at hlast
        cases answer with
        | error e => exact absurd trivial hlast
        | ok x =>
          have hlt : ly.weight < lx.weight := next_weight_lt hnext hlast
          obtain ⟨calls, hcalls, hends⟩ := ih ly.weight hlt ly rfl
          refine ⟨calls + 1, by omega, ?_⟩
          rwa [afterCalls_succ, hnext]

theorem weight_ofSource (asyncAlways : Bool) (s : Source) :
    (ofSource asyncAlways s).weight = 3 * s.text.length := rfl

/-- How many dedents are due after a request, of those that were due before it. -/
def owed (dedents : Nat) : Request → Nat
  | .next => dedents - 1
  | .queueDedents n => n

theorem owed_calls (dedents calls : Nat) :
    (List.replicate calls Request.next).foldl owed dedents = dedents - calls := by
  induction calls generalizing dedents with
  | zero => rfl
  | succ calls ih =>
    rw [List.replicate_succ, List.foldl_cons, ih, owed]
    omega

/-- A lexer at its end hands out what is due, from where it stands. -/
theorem AtEnd.answer (h : lx.AtEnd) :
    lx.next.1 = .ok (lx.cursor.bare (if 0 < lx.pendingDedents then .dedent else .endMarker)) := by
  cases hn : lx.pendingDedents with
  | zero => rw [h.next_of_drained hn, if_neg (Nat.lt_irrefl 0)]
  | succ n => rw [h.next_dedent hn, if_pos (Nat.succ_pos n)]

/-- Requests leave it there, and change only what is due. -/
theorem AtEnd.after (h : lx.AtEnd) (request : Request) :
    (lx.after request).AtEnd ∧ (lx.after request).cursor = lx.cursor ∧
      (lx.after request).pendingDedents = owed lx.pendingDedents request := by
  cases request with
  | queueDedents n => exact ⟨h.queueDedents n, rfl, rfl⟩
  | next =>
    change lx.next.2.AtEnd ∧ lx.next.2.cursor = lx.cursor ∧
      lx.next.2.pendingDedents = lx.pendingDedents - 1
    cases hn : lx.pendingDedents with
    | zero =>
      obtain ⟨ly, hnext, hend, hdue, hcursor, -⟩ := h.next_endMarker hn
      rw [hnext]
      exact ⟨hend, hcursor, hdue⟩
    | succ n =>
      rw [h.next_dedent hn]
      exact ⟨h.queued n, rfl, rfl⟩

theorem AtEnd.requests (h : lx.AtEnd) (requests : List Request) :
    (requests.foldl Lexer.after lx).AtEnd ∧ (requests.foldl Lexer.after lx).cursor = lx.cursor ∧
      (requests.foldl Lexer.after lx).pendingDedents = requests.foldl owed lx.pendingDedents := by
  induction requests generalizing lx with
  | nil => exact ⟨h, rfl, rfl⟩
  | cons request requests ih =>
    obtain ⟨hend, hcursor, hdue⟩ := h.after request
    obtain ⟨hend', hcursor', hdue'⟩ := ih hend
    refine ⟨hend', hcursor'.trans hcursor, ?_⟩
    rw [List.foldl_cons, List.foldl_cons, hdue', hdue]

/-- A lexer that has handed out this end marker gives it again and again. Whatever was asked for in
between, as many dedents come first as it was last told to queue. -/
structure Rests (x : Lexeme) (lx : Lexer) : Prop where
  again : ∀ calls, (lx.afterCalls calls).next.1 = .ok x
  queued : ∀ (requests : List Request) (dedents calls : Nat),
    (((requests.foldl Lexer.after lx).queueDedents dedents).afterCalls calls).next.1 =
      .ok (if calls < dedents then { x with kind := .dedent } else x)

/-- What comes of so many calls at the end. -/
theorem AtEnd.answer_afterCalls (h : lx.AtEnd) (calls : Nat) :
    (lx.afterCalls calls).next.1 =
      .ok (lx.cursor.bare (if calls < lx.pendingDedents then .dedent else .endMarker)) := by
  obtain ⟨hend, hcursor, hdue⟩ := h.requests (List.replicate calls Request.next)
  rw [owed_calls] at hdue
  have hanswer : (lx.afterCalls calls).next.1 = _ := hend.answer
  rw [hcursor, hdue] at hanswer
  simpa only [Nat.sub_pos_iff_lt] using hanswer

theorem rests_of_next (h : lx.next = (.ok x, ly)) (hx : x.kind = .endMarker) : Rests x ly := by
  obtain ⟨hend, hdue, rfl⟩ := atEnd_of_next h hx
  refine ⟨fun calls => ?_, fun requests dedents calls => ?_⟩
  · rw [hend.answer_afterCalls, hdue, if_neg (Nat.not_lt_zero _)]
  · obtain ⟨hend', hcursor, -⟩ := hend.requests requests
    rw [(hend'.queueDedents dedents).answer_afterCalls]
    change Except.ok ((requests.foldl Lexer.after ly).cursor.bare
      (if calls < dedents then .dedent else .endMarker)) = _
    rw [hcursor]
    split <;> rfl

/-- However a fresh lexer is used, each call ends. At the latest after three calls for each byte
and another one, the next call reaches the end marker or an error, and the end marker is where the
lexer stays. -/
theorem calls_end (asyncAlways : Bool) (s : Source) :
    (∀ requests : List Request,
      let lx := requests.foldl Lexer.after (ofSource asyncAlways s)
      lx.nextWithin (lx.weight + 1) = some lx.next) ∧
    (∃ calls < 3 * byteLength s.text + 2,
      IsLast ((ofSource asyncAlways s).afterCalls calls).next.1) ∧
    ∀ (requests : List Request) (x : Lexeme) (ly : Lexer),
      (requests.foldl Lexer.after (ofSource asyncAlways s)).next = (.ok x, ly) →
        x.kind = .endMarker → Rests x ly := by
  refine ⟨fun requests => nextWithin_weight _, ?_, fun requests x ly h hx => rests_of_next h hx⟩
  obtain ⟨calls, hcalls, hlast⟩ := exists_isLast (ofSource asyncAlways s)
  have hlength := Text.length_le_byteLength s.text
  rw [weight_ofSource] at hcalls
  exact ⟨calls, by omega, hlast⟩

end Offside.Lexer
