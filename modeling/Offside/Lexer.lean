import Offside.Lexer.Progress

/-!
The lexer: a source of tokens over a text. It ends with an end marker, which it gives again
whenever it is asked again, or with an error, which stays unless the input merely broke off.
-/

namespace Offside.Lexer

/-- Input that breaks off leaves the lexer at its end; any other error is for good. -/
def fail (e : LexError) (lx : Lexer) : Lexer :=
  { lx with stop := if e = .endOfFile then .exhausted else .failed e }

/-- Takes turns until one gives a token or an error. -/
def scan (lx : Lexer) : Except LexError Lexeme × Lexer :=
  match h : lx.turn with
  | (.lexeme x, lx') => (.ok x, lx')
  | (.failed e, lx') => (.error e, lx'.fail e)
  | (.nothing, lx') =>
    have : lx'.weight < lx.weight := turn_weight_lt h trivial
    lx'.scan
termination_by lx.weight

def next (lx : Lexer) : Except LexError Lexeme × Lexer :=
  match lx.stop with
  | .failed e => (.error e, lx)
  | _ => lx.leaveLine.scan

def queueDedents (n : Nat) (lx : Lexer) : Lexer :=
  { lx with pendingDedents := n, pendingIndent := false, indents := Indents.empty }

/-- The text of a span; nothing if the span does not lie in the text or cuts a character. -/
def slice (lx : Lexer) (s : Span) : String :=
  String.ofList ((Text.slice? lx.text s.start s.stop).getD [])

instance : TokenSource Lexer where
  next := next
  depth lx := lx.indents.depth
  queueDedents := queueDedents
  encoding? lx := lx.encoding?
  line lx := lx.cursor.line.toNat
  buffered? lx := lx.cursor.lineBuffer?
  offset lx := lx.cursor.lineOffset
  remaining lx := lx.cursor.rest
  stopReason lx := lx.stop

theorem scan_weight_lt {lx lx' : Lexer} {x : Lexeme} (h : lx.scan = (.ok x, lx'))
    (hx : x.kind ≠ .endMarker) : lx'.weight < lx.weight := by
  fun_induction scan lx with
  | case1 lx y ly ht =>
    simp only [Prod.mk.injEq, Except.ok.injEq] at h
    obtain ⟨rfl, rfl⟩ := h
    exact turn_weight_lt ht hx
  | case2 => simp at h
  | case3 lx ly _ hlt ih => exact Nat.lt_trans (ih h) hlt

theorem next_weight_lt {lx lx' : Lexer} {x : Lexeme} (h : lx.next = (.ok x, lx'))
    (hx : x.kind ≠ .endMarker) : lx'.weight < lx.weight := by
  unfold next at h
  split at h
  · simp at h
  · exact leaveLine_weight lx ▸ scan_weight_lt h hx

/-- Reads to the end marker or to an error. The tokens already read are `read`, last token
first. -/
def drainFrom (read : List Token) (lx : Lexer) : List Token × Option LexError × Lexer :=
  match h : lx.next with
  | (.error e, lx') => (read.reverse, some e, lx')
  | (.ok x, lx') =>
    if hx : x.kind = .endMarker then ((x.token :: read).reverse, none, lx')
    else
      have : lx'.weight < lx.weight := next_weight_lt h hx
      drainFrom (x.token :: read) lx'
termination_by lx.weight

/-- The tokens up to the end marker, or up to an error. -/
def drain (lx : Lexer) : List Token × Option LexError × Lexer := drainFrom [] lx

/-- The tokens up to the end marker, with none added for blocks that are left open. -/
def tokens (lx : Lexer) : Except LexError (List Token) × Lexer :=
  match lx.drain with
  | (ts, none, lx') => (.ok ts, lx')
  | (_, some e, lx') => (.error e, lx')

end Offside.Lexer
