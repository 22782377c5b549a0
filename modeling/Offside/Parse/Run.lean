import Offside.Diagnostic
import Offside.Options
import Offside.PragmaBuffer
import Offside.TokenSource

/-!
A run of an automaton over a source. The first end marker after a token is given to the automaton
as a newline, and the source is asked for the dedents that close its open blocks; pragmas are put
aside; all else goes to the automaton until it accepts or rejects. What came out is then finished:
the pragmas are hung below the token that ends a module, a single statement must stand alone, and
a known encoding is recorded at the root.
-/

namespace Offside

/-- Why a run gave no tree. -/
structure Failure where
  kind : FailureKind
  token? : Option Kind
  expected? : Option Kind
  deriving DecidableEq, Inhabited

def Failure.ofKind (kind : FailureKind) : Failure := ⟨kind, none, none⟩

/-- Allocation failures are failures for want of memory, whatever refused the room. -/
def Failure.ofAllocError (_ : AllocError) : Failure := .ofKind .outOfMemory

/-- A run in progress. -/
structure Run (σ α : Type) where
  source : σ
  automaton : α
  pragmas : PragmaBuffer
  /-- whether a token was read since the last end marker that became a newline -/
  started : Bool

namespace Run

variable {σ α : Type} [TokenSource σ] [Automaton α]

/-- Decides under which kind a lexeme goes on, and queues dedents when the input has ended. -/
def terminate (flags : Flags) (kind : Kind) (r : Run σ α) : Kind × Run σ α :=
  if kind ≠ .endMarker ∨ r.started = false then (kind, { r with started := true })
  else
    let depth := TokenSource.depth r.source
    let source := if 0 < depth ∧ flags.dontImplyDedent = false
      then TokenSource.queueDedents depth r.source else r.source
    (.newline, { r with source, started := false })

/-- Which spelling of an inequality is right depends on the features. -/
def checkSpelling (future : Future) (t : Token) : Except Failure Unit :=
  if t.kind ≠ .notEqual then .ok ()
  else if Future.has angleInequality future then
    if t.text = "<>" then .ok () else .error ⟨.unexpectedToken, none, some .notEqual⟩
  else if t.text = "!=" then .ok ()
  else .error (.ofKind .unexpectedToken)

/-- What a step comes to. -/
inductive Progress
  | more
  | accepted (tree : Node)
  | failed (failure : Failure)

/-- Gives a token to the automaton. -/
def offer (t : Token) (r : Run σ α) : Progress × Run σ α :=
  match checkSpelling (Automaton.future r.automaton) t with
  | .error f => (.failed f, r)
  | .ok () =>
    let (verdict, automaton) := Automaton.feed t r.automaton
    let r := { r with automaton }
    match verdict with
    | .more => (.more, r)
    | .accept tree => (.accepted tree, r)
    | .reject expected? => (.failed ⟨.unexpectedToken, some t.kind, expected?⟩, r)
    | .outOfMemory => (.failed ⟨.outOfMemory, some t.kind, none⟩, r)

/-- Reads one lexeme and deals with it. -/
def step (flags : Flags) (r : Run σ α) : Progress × Run σ α :=
  match TokenSource.next r.source with
  | (.error e, source) => (.failed (.ofKind (.ofLexError e)), { r with source })
  | (.ok x, source) =>
    let (kind, r) := terminate flags x.kind { r with source }
    if kind = .typeIgnore then
      match r.pragmas.push x.line x.text with
      | .ok pragmas => (.more, { r with pragmas })
      | .error e => (.failed (.ofAllocError e), r)
    else offer { x.token with kind } r

/-- Steps until there is a tree or a failure, or until the fuel is used up. -/
def loop (flags : Flags) : Nat → Run σ α → Option (Except Failure Node × Run σ α)
  | 0, _ => none
  | fuel + 1, r =>
    match r.step flags with
    | (.more, r) => loop flags fuel r
    | (.accepted tree, r) => some (.ok tree, r)
    | (.failed f, r) => some (.error f, r)

end Run

namespace Parse

def pragmaNode (p : PragmaEntry) : Node := .leaf ⟨.typeIgnore, p.text, p.line, some 0⟩

/-- Hangs pragmas below the end marker of a module. -/
def attachPragmas (pragmas : List PragmaEntry) (tree : Node) : Except Failure Node :=
  match tree.children.reverse with
  | [] => .error (.ofKind .internal)
  | last :: before =>
    if last.isToken .endMarker then
      let last := last.withChildren (last.children ++ pragmas.map pragmaNode)
      .ok (tree.withChildren (last :: before).reverse)
    else .error (.ofKind .internal)

/-- Whether a text holds anything but blanks, line breaks and comments. `inComment` tells
whether the text starts inside a comment, which only a line feed ends. -/
def holdsCode (inComment : Bool) : List Char → Bool
  | [] => false
  | c :: rest =>
    if inComment then holdsCode (c != '\n') rest
    else if c = '#' then holdsCode true rest
    else if Text.isLayout c || Text.isBreak c then holdsCode false rest
    else true

/-- Puts a tree below a node that names its encoding. -/
def wrapEncoding (encoding : String) (tree : Node) : Node :=
  ((Node.branch .encodingDecl 0 none []).withText (some encoding)).push tree

variable {σ α : Type} [TokenSource σ] [Automaton α]

def finish (start : StartRule) (source : σ) (pragmas : PragmaBuffer) (tree : Node) :
    Except Failure Node := do
  let tree ← if tree.isSymbol .fileInput then attachPragmas pragmas.toList tree else pure tree
  if start = .single ∧ holdsCode false (TokenSource.remaining source) = true then
    .error (.ofKind .manyStatements)
  else
    match TokenSource.encoding? source with
    | some encoding => pure (wrapEncoding encoding tree)
    | none => pure tree

/-- Tells where a run failed. A source that ran out of input in the middle of something needed
more of it, whatever failed. -/
def report (source : σ) (filename? : Option String) (f : Failure) : Diagnostic :=
  let text? := TokenSource.buffered? source
  { kind := if TokenSource.stopReason source = .exhausted then .endOfFile else f.kind
    filename := filename?.getD Diagnostic.namelessInput
    line := TokenSource.line source
    offset := if text?.isSome then TokenSource.offset source else 0
    text? := text?
    token? := f.token?
    expected? := f.expected? }

/-- What a parse leaves behind. -/
structure Outcome (σ α : Type) where
  result : Except Diagnostic Node
  options : Options
  source : σ
  automaton : α

/-- Parses what a source gives, in at most `fuel` steps; none if these were not enough. -/
def tokens (fuel : Nat) (start : StartRule) (options : Options) (filename? : Option String)
    (source : σ) (automaton : α) : Option (Outcome σ α) :=
  let automaton := Automaton.setFuture options.future automaton
  let conclude (result : Except Failure Node) (source : σ) (automaton : α) : Outcome σ α :=
    { result := result.mapError (report source filename?)
      options := { options with future := Automaton.future automaton }
      source, automaton }
  match PragmaBuffer.ofCapacity options.pragmaCapacity options.pragmaLimit? with
  | .error e => some (conclude (.error (.ofAllocError e)) source automaton)
  | .ok pragmas =>
    (Run.loop options.flags fuel ⟨source, automaton, pragmas, false⟩).map fun (result, r) =>
      conclude (result >>= finish start r.source r.pragmas) r.source r.automaton

end Parse
end Offside
