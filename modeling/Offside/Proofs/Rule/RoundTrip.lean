import Offside.Proofs.Outcome
import Offside.Proofs.Rule.Printer
import Offside.Proofs.Text.Breaks

/-!
Rule texts as they are printed, a rule on each line, with blank lines and comments before, between
and behind the rules. The main statement is that such a text is read back to its rules, each with
the number of its line, and that the other lines change nothing but these numbers.
-/

namespace Offside

namespace Rule

open Pattern Text

variable {ps : List Piece} {text rest line : List Char} {name : String} {body : Pattern Item}

section Pieces

variable {c : Char} (found : List Piece)

theorem piecesFrom_space (h : isSpace c = true) :
    piecesFrom found (c :: rest) = piecesFrom found rest := by
  rw [piecesFrom, if_pos h]

theorem piecesFrom_hash :
    piecesFrom found ('#' :: rest) = piecesFrom found (rest.dropWhile (· != '\n')) := by
  rw [piecesFrom, if_neg (by decide), if_pos rfl]

theorem toNat_of_isNameStart (h : isNameStart c = true) : 65 ≤ c.toNat ∧ c.toNat ≤ 122 := by
  have hbetween : ∀ low high : Char, c.val ≥ low.val → c.val ≤ high.val → 65 ≤ low.toNat →
      high.toNat ≤ 122 → 65 ≤ c.toNat ∧ c.toNat ≤ 122 := fun low high hlow hhigh h65 h122 =>
    ⟨h65.trans (UInt32.le_iff_toNat_le.1 hlow), (UInt32.le_iff_toNat_le.1 hhigh).trans h122⟩
  rcases Bool.or_eq_true_iff.1 h with hletter | hscore
  · rcases Bool.or_eq_true_iff.1 hletter with hupper | hlower
    · have hupper := of_decide_eq_true hupper
      exact hbetween 'A' 'Z' hupper.1 hupper.2 (by decide) (by decide)
    · have hlower := Bool.and_eq_true_iff.1 hlower
      exact hbetween 'a' 'z' (of_decide_eq_true hlower.1) (of_decide_eq_true hlower.2) (by decide)
        (by decide)
  · rw [beq_iff_eq.1 hscore]
    decide

theorem isNameStart_not_space (h : isNameStart c = true) : ¬isSpace c = true ∧ c ≠ '#' := by
  obtain ⟨hlow, -⟩ := toNat_of_isNameStart h
  refine ⟨fun hspace => ?_, ?_⟩
  · simp only [isSpace, Bool.or_eq_true, beq_iff_eq] at hspace
    rcases hspace with ((rfl | rfl) | rfl) | rfl <;> exact absurd hlow (by decide)
  · rintro rfl
    exact absurd hlow (by decide)

theorem piecesFrom_name (h : IsName name) (hend : ∀ c ∈ rest.head?, isNameChar c = false) :
    piecesFrom found (name.toList ++ rest) = piecesFrom (⟨.name, name⟩ :: found) rest := by
  obtain ⟨c, more, hname, hstart, hmore⟩ := h
  obtain ⟨hspace, hhash⟩ := isNameStart_not_space hstart
  rw [hname, List.cons_append, piecesFrom, if_neg hspace, if_neg hhash, if_pos hstart,
    takeWhile_append_of_head hmore hend, dropWhile_append_of_head hmore hend, ← hname,
    String.ofList_toList]

theorem piecesFrom_quoted {inside : String} (h : IsQuotable inside) :
    piecesFrom found ('\'' :: (inside.toList ++ '\'' :: rest)) =
      piecesFrom (⟨.quoted, inside⟩ :: found) rest := by
  obtain ⟨hne, hquote, hfeed⟩ := h
  have hinside : ∀ c ∈ inside.toList, isQuotedChar c = true := by
    intro c hc
    simp only [isQuotedChar, Bool.and_eq_true, bne_iff_ne]
    exact ⟨fun heq => hquote (heq ▸ hc), fun heq => hfeed (heq ▸ hc)⟩
  have hend : ∀ c ∈ ('\'' :: rest).head?, isQuotedChar c = false :=
    forall_mem_head?_cons.2 (by decide)
  rw [piecesFrom, if_neg (by decide), if_neg (by decide), if_neg (by decide), if_pos rfl]
  dsimp only
  split
  · next q after hdrop =>
    rw [dropWhile_append_of_head hinside hend] at hdrop
    obtain ⟨rfl, rfl⟩ := List.cons.inj hdrop
    rw [takeWhile_append_of_head hinside hend, if_pos ⟨rfl, hne⟩, String.ofList_toList]
  · next hdrop =>
    rw [dropWhile_append_of_head hinside hend] at hdrop
    cases hdrop

theorem piecesFrom_mark {mark : Mark} (h : markOf? c = some mark) :
    piecesFrom found (c :: rest) = piecesFrom (⟨mark, String.singleton c⟩ :: found) rest := by
  have hother : ¬isSpace c = true ∧ c ≠ '#' ∧ ¬isNameStart c = true ∧ c ≠ '\'' := by
    unfold markOf? at h
    split at h <;> first | decide | cases h
  obtain ⟨hspace, hhash, hname, hquote⟩ := hother
  rw [piecesFrom, if_neg hspace, if_neg hhash, if_neg hname, if_neg hquote, h]

theorem piecesFrom_of_shows (h : Shows ps text) (hend : ∀ c ∈ rest.head?, isNameChar c = false) :
    piecesFrom found (text ++ rest) = piecesFrom (ps.reverse ++ found) rest := by
  induction h generalizing found with
  | nil => rfl
  | space _ ih => rw [List.cons_append, piecesFrom_space found (by decide), ih]
  | @name name ps text hname hstop _ ih =>
    have hhead : ∀ c ∈ (text ++ rest).head?, isNameChar c = false := by
      cases text with
      | nil => exact hend
      | cons => exact hstop
    rw [List.append_assoc, piecesFrom_name found hname hhead, ih, List.reverse_cons,
      List.append_assoc]
    rfl
  | @quoted inside ps text hinside _ ih =>
    show piecesFrom found ('\'' :: ((inside.toList ++ '\'' :: text) ++ rest)) = _
    rw [List.append_assoc, List.cons_append, piecesFrom_quoted found hinside, ih,
      List.reverse_cons, List.append_assoc]
    rfl
  | mark hmark _ ih =>
    rw [List.cons_append, piecesFrom_mark found hmark, ih, List.reverse_cons, List.append_assoc]
    rfl

end Pieces

/-- A line without a rule: blanks, and a comment if there is anything else. -/
def IsBlankLine (line : List Char) : Prop :=
  '\n' ∉ line ∧ ∀ c ∈ (line.dropWhile isSpace).head?, c = '#'

/-- What follows a line: nothing, or a line feed and more. -/
def StartsLine (text : List Char) : Prop := ∀ c ∈ text.head?, c = '\n'

theorem not_isNameChar_of_startsLine (h : StartsLine text) :
    ∀ c ∈ text.head?, isNameChar c = false := fun c hc => by
  rw [h c hc]
  decide

/-- A line without a rule has no pieces. -/
theorem piecesFrom_blankLine (found : List Piece) (hline : IsBlankLine line)
    (hrest : StartsLine rest) : piecesFrom found (line ++ rest) = piecesFrom found rest := by
  obtain ⟨hfeed, hhead⟩ := hline
  induction line with
  | nil => rfl
  | cons c line ih =>
    have hline : '\n' ∉ line := fun h => hfeed (List.mem_cons_of_mem _ h)
    by_cases hspace : isSpace c = true
    · rw [List.dropWhile_cons, if_pos hspace] at hhead
      rw [List.cons_append, piecesFrom_space found hspace, ih hline hhead]
    · rw [List.dropWhile_cons, if_neg hspace] at hhead
      obtain rfl := hhead c rfl
      have hcomment : ∀ d ∈ line, (d != '\n') = true := fun d hd =>
        bne_iff_ne.2 fun heq => hline (heq ▸ hd)
      have hend : ∀ d ∈ rest.head?, (d != '\n') = false := fun d hd => by
        rw [hrest d hd]
        rfl
      rw [List.cons_append, piecesFrom_hash, dropWhile_append_of_head hcomment hend]

theorem startsRule_blankLine (h : IsBlankLine line) : startsRule line = false := by
  obtain ⟨-, hhead⟩ := h
  cases line with
  | nil => rfl
  | cons c line =>
    by_cases hspace : isSpace c = true
    · simp only [isSpace, Bool.or_eq_true, beq_iff_eq] at hspace
      rcases hspace with ((rfl | rfl) | rfl) | rfl <;> rfl
    · rw [List.dropWhile_cons, if_neg hspace] at hhead
      obtain rfl := hhead c rfl
      rfl

theorem startsRule_name (h : IsName name) (text : List Char) :
    startsRule (name.toList ++ text) = true := by
  obtain ⟨c, more, hname, hstart, -⟩ := h
  obtain ⟨hlow, hhigh⟩ := toNat_of_isNameStart hstart
  have hblank : isBlank c = false := by
    simp only [isBlank, Bool.or_eq_false_iff, Bool.and_eq_false_iff, decide_eq_false_iff_not,
      beq_eq_false_iff_ne]
    omega
  rw [hname, List.cons_append, startsRule, hblank]
  exact bne_iff_ne.2 (isNameStart_not_space hstart).2

section Rows

/-- A line is cut off behind its line feed. -/
theorem rowsFrom_line (opened : List Char) (hline : '\n' ∉ line) :
    rowsFrom opened (line ++ '\n' :: rest) = closeLine (line.reverse ++ opened) :: rows rest := by
  induction line generalizing opened with
  | nil => rw [List.nil_append, rowsFrom, if_pos rfl, List.reverse_nil, List.nil_append, rows]
  | cons c line ih =>
    rw [List.mem_cons, not_or] at hline
    rw [List.cons_append, rowsFrom, if_neg (Ne.symm hline.1), ih _ hline.2, List.reverse_cons,
      List.append_assoc]
    rfl

/-- It loses a carriage return before its line feed. -/
theorem closeLine_reverse (line : List Char) :
    closeLine line.reverse = line ∨ line = closeLine line.reverse ++ ['\r'] := by
  unfold closeLine
  split
  · next opened hline =>
    refine Or.inr ?_
    rw [← List.reverse_cons, ← hline, List.reverse_reverse]
  · exact Or.inl (List.reverse_reverse line)

theorem closeLine_of_last (h : line.getLast? ≠ some '\r') : closeLine line.reverse = line := by
  refine (closeLine_reverse line).resolve_right fun hline => h ?_
  rw [hline, List.getLast?_concat]

theorem isBlankLine_closeLine (h : IsBlankLine line) : IsBlankLine (closeLine line.reverse) := by
  rcases closeLine_reverse line with heq | hline
  · rwa [heq]
  · generalize closeLine line.reverse = front at hline
    subst hline
    obtain ⟨hfeed, hhead⟩ := h
    refine ⟨fun hmem => hfeed (List.mem_append_left _ hmem), fun c hc => hhead c ?_⟩
    rw [List.dropWhile_append]
    cases hfront : front.dropWhile isSpace with
    | nil =>
      rw [hfront] at hc
      cases hc
    | cons d left =>
      rw [hfront] at hc
      exact hc

end Rows

/-- A line of a rule text. -/
inductive Line
  | rule (name : String) (body : Pattern Item)
  /-- a blank line, or a comment -/
  | blank (text : List Char)

namespace Line

def IsPrintable : Line → Prop
  | rule name body => IsName name ∧ body.IsPrintable
  | blank text => IsBlankLine text

def written : Line → List Char
  | rule name body => name.toList ++ (':' :: ' ' :: body.written)
  | blank text => text

/-- The rule on a line with this number. -/
def rule? (number : Nat) : Line → Option Rule
  | rule name body => some ⟨name, body, number⟩
  | blank _ => none

end Line

/-- Lines one below the other. -/
def printed (lines : List Line) : List Char := lines.flatMap fun l => l.written ++ ['\n']

/-- The rules on lines that are numbered from `first` on. -/
def numbered (first : Nat) (lines : List Line) : List Rule :=
  (lines.zipIdx first).filterMap fun l => l.1.rule? l.2

theorem last_append {front : List Char} (hfront : front.getLast? ≠ some '\r')
    (htext : text.getLast? ≠ some '\r') : (front ++ text).getLast? ≠ some '\r' := by
  rw [List.getLast?_append]
  cases hlast : text.getLast? with
  | none => exact hfront
  | some c => rwa [hlast] at htext

theorem IsName.unbroken (h : IsName name) : Unbroken name.toList := by
  obtain ⟨c, more, hname, hstart, hmore⟩ := h
  have hc : isNameChar c = true := by
    rcases Bool.or_eq_true_iff.1 hstart with hletter | hscore
    · rw [isNameChar, Char.isAlphanum, hletter, Bool.true_or, Bool.true_or]
    · rw [isNameChar, hscore, Bool.or_true]
  rw [hname]
  exact unbroken_of_forall (p := isNameChar) (by decide) (by decide)
    (List.forall_mem_cons.2 ⟨hc, hmore⟩)

theorem oneLine_of_unbroken (h : Unbroken text) : '\n' ∉ text ∧ text.getLast? ≠ some '\r' :=
  ⟨fun hmem => absurd (h _ hmem) (by decide),
    fun hlast => absurd (h _ (List.mem_of_getLast? hlast)) (by decide)⟩

theorem unbroken_of_markOf? {c : Char} {mark : Mark} (h : markOf? c = some mark) :
    Unbroken [c] := by
  unfold markOf? at h
  split at h <;> first | decide | cases h

/-- Pieces stand on one line, and do not end in a carriage return. -/
theorem Shows.oneLine (h : Shows ps text) : '\n' ∉ text ∧ text.getLast? ≠ some '\r' := by
  have hjoin : ∀ {front text : List Char}, ('\n' ∉ front ∧ front.getLast? ≠ some '\r') →
      ('\n' ∉ text ∧ text.getLast? ≠ some '\r') →
      '\n' ∉ front ++ text ∧ (front ++ text).getLast? ≠ some '\r' := fun hfront htext =>
    ⟨fun hmem => (List.mem_append.1 hmem).elim hfront.1 htext.1, last_append hfront.2 htext.2⟩
  induction h with
  | nil => exact ⟨List.not_mem_nil, by decide⟩
  | space _ ih => exact hjoin (oneLine_of_unbroken (show Unbroken [' '] by decide)) ih
  | name hname _ _ ih => exact hjoin (oneLine_of_unbroken hname.unbroken) ih
  | @quoted inside ps text hinside _ ih =>
    have hquoted : '\n' ∉ '\'' :: (inside.toList ++ ['\'']) := by
      simpa using hinside.2.2
    have hlast : ('\'' :: (inside.toList ++ ['\''])).getLast? = some '\'' :=
      List.getLast?_concat (l := '\'' :: inside.toList)
    have hparts := hjoin ⟨hquoted, by rw [hlast]; decide⟩ ih
    rwa [List.cons_append, List.append_assoc] at hparts
  | mark hmark _ ih => exact hjoin (oneLine_of_unbroken (unbroken_of_markOf? hmark)) ih

/-- A rule as it is printed, cut into pieces and read. -/
theorem exists_pieces (hname : IsName name) (hbody : body.IsPrintable) :
    ∃ ps, Shows ps (Line.rule name body).written ∧
      ∀ number, ofPieces number ps = .ok ⟨name, body, number⟩ := by
  obtain ⟨ps, c, hshows, hclose, hread⟩ := (reads_written hbody).2
  have hcolon : Shows (⟨.colon, String.singleton ':'⟩ :: ps) (':' :: ' ' :: body.written) :=
    .mark rfl hshows.space
  have hend : ∀ d ∈ (':' :: ' ' :: body.written).head?, isNameChar d = false :=
    forall_mem_head?_cons.2 (by decide)
  refine ⟨_, .name hname hend hcolon, fun number => ?_⟩
  have hwhole : readBody [] Choice.empty ps = .ok body := by
    have hread' := hread [] []
    rw [List.append_nil] at hread'
    rw [hread', readBody, hclose]
    rfl
  rw [ofPieces, if_neg (not_not_intro rfl)]
  dsimp only
  rw [if_neg (not_not_intro rfl), hwhole]
  rfl

theorem Line.oneLine {l : Line} (h : l.IsPrintable) : '\n' ∉ l.written := by
  cases l with
  | rule name body =>
    obtain ⟨ps, hshows, -⟩ := exists_pieces h.1 h.2
    exact hshows.oneLine.1
  | blank text => exact h.1

theorem rows_printed {lines : List Line} (h : ∀ l ∈ lines, l.IsPrintable) :
    rows (printed lines) = lines.map fun l => closeLine l.written.reverse := by
  induction lines with
  | nil => rfl
  | cons l lines ih =>
    obtain ⟨hl, hlines⟩ := List.forall_mem_cons.1 h
    rw [printed, List.flatMap_cons, List.append_assoc, List.singleton_append, rows,
      rowsFrom_line [] (Line.oneLine hl), List.append_nil, List.map_cons]
    exact congrArg _ (ih hlines)

/-- The text of a rule, with the blank lines and the comments behind it, is read as the rule. -/
theorem ofBlock_rule (hname : IsName name) (hbody : body.IsPrintable) {behind : List Char}
    (hstarts : StartsLine behind) (hblank : ∀ found, piecesFrom found behind = .ok found.reverse)
    (number : Nat) :
    ofBlock ⟨number, (Line.rule name body).written ++ behind⟩ = .ok ⟨name, body, number⟩ := by
  obtain ⟨ps, hshows, hread⟩ := exists_pieces hname hbody
  have hpieces : pieces ((Line.rule name body).written ++ behind) = .ok ps := by
    rw [pieces, piecesFrom_of_shows [] hshows (not_isNameChar_of_startsLine hstarts), hblank,
      List.append_nil, List.reverse_reverse]
  have hrule : (pieces ((Line.rule name body).written ++ behind) >>= ofPieces number) =
      .ok ⟨name, body, number⟩ := by
    rw [hpieces]
    exact hread number
  unfold ofBlock
  rw [hrule]

/-- What lines come to: whatever goes on the rule before them has no pieces, and the rules that
start on them are read. -/
structure Collects (collected : List Char × List Block) (rules : List Rule) : Prop where
  starts : StartsLine collected.1
  blank : ∀ found, piecesFrom found collected.1 = .ok found.reverse
  blocks : collected.2.mapM ofBlock = .ok rules

theorem piecesFrom_nil (found : List Piece) : piecesFrom found [] = .ok found.reverse := by
  rw [piecesFrom]

theorem collects_nil : Collects ([], []) [] := ⟨fun _ hc => (by cases hc), piecesFrom_nil, rfl⟩

theorem Collects.blankLine {after : List Char × List Block} {rules : List Rule}
    (h : Collects after rules) (hline : IsBlankLine line) (number : Nat) :
    Collects (addRow line number after) rules := by
  rw [addRow, startsRule_blankLine hline, if_neg Bool.false_ne_true]
  refine ⟨fun c hc => (Option.some.inj hc).symm, fun found => ?_, h.blocks⟩
  rw [piecesFrom_space found (by decide), piecesFrom_blankLine found hline h.starts, h.blank]

theorem Collects.rule {after : List Char × List Block} {rules : List Rule}
    (h : Collects after rules) (hname : IsName name) (hbody : body.IsPrintable) (number : Nat) :
    Collects (addRow (Line.rule name body).written number after)
      (⟨name, body, number⟩ :: rules) := by
  have hstart : startsRule (Line.rule name body).written = true := startsRule_name hname _
  rw [addRow, if_pos hstart]
  refine ⟨fun _ hc => (by cases hc), piecesFrom_nil, ?_⟩
  rw [List.mapM_cons, ofBlock_rule hname hbody h.starts h.blank, h.blocks]
  rfl

theorem collects_printed {lines : List Line} (h : ∀ l ∈ lines, l.IsPrintable) (first : Nat) :
    Collects (blocksFrom first (lines.map fun l => closeLine l.written.reverse))
      (numbered first lines) := by
  induction lines generalizing first with
  | nil => exact collects_nil
  | cons l lines ih =>
    obtain ⟨hl, hlines⟩ := List.forall_mem_cons.1 h
    have hafter := ih hlines (first + 1)
    cases l with
    | rule name body =>
      obtain ⟨ps, hshows, -⟩ := exists_pieces hl.1 hl.2
      rw [List.map_cons, blocksFrom, closeLine_of_last hshows.oneLine.2]
      exact hafter.rule hl.1 hl.2 first
    | blank text => exact hafter.blankLine (isBlankLine_closeLine hl) first

/-- The rules that a text shows, without their numbers. -/
def Line.content? : Line → Option (String × Pattern Item)
  | rule name body => some (name, body)
  | blank _ => none

theorem map_numbered (first : Nat) (lines : List Line) :
    (numbered first lines).map (fun r => (r.name, r.body)) = lines.filterMap Line.content? := by
  induction lines generalizing first with
  | nil => rfl
  | cons l lines ih =>
    cases l with
    | rule name body => exact congrArg ((name, body) :: ·) (ih (first + 1))
    | blank text => exact ih (first + 1)

/-- Printed rules are read back, each with the number of its line. Blank lines and comments between
them move the numbers and change nothing else. -/
theorem readAll_printed {lines : List Line} (h : ∀ l ∈ lines, l.IsPrintable) :
    readAll (printed lines) = .ok (numbered 1 lines) ∧
      (numbered 1 lines).map (fun r => (r.name, r.body)) = lines.filterMap Line.content? := by
  refine ⟨?_, map_numbered 1 lines⟩
  rw [readAll, blocks, rows_printed h]
  exact (collects_printed h 1).blocks

/-- Two rules, with a comment above them and a blank line between. -/
def sumLines : List Line :=
  let word (name : String) : Pattern Item := leaf (.name name)
  let sign (text : String) : Pattern Item := leaf (.quoted text)
  [.blank "# sums".toList,
    .rule "sum" (seq [word "term", star (seq [alt [sign "+", sign "-"], word "term"])]),
    .blank [],
    .rule "term" (plus (opt (alt [word "NUMBER", star (plus (word "NAME"))])))]

theorem isPrintable_sumLines : ∀ l ∈ sumLines, l.IsPrintable := by
  have hname : ∀ c rest, isNameStart c = true → (∀ d ∈ rest, isNameChar d = true) →
      IsName (String.ofList (c :: rest)) :=
    fun c rest hc hrest => ⟨c, rest, String.toList_ofList, hc, hrest⟩
  have hterm : IsName "term" := hname 't' ['e', 'r', 'm'] rfl (List.all_eq_true.1 rfl)
  have hword : ∀ {name : String}, IsName name → (leaf (.name name)).IsPrintable :=
    fun hname => .leaf hname
  have hsign : ∀ {c : Char}, c ≠ '\'' ∧ c ≠ '\n' →
      (leaf (.quoted (String.ofList [c]))).IsPrintable := fun hc =>
    .leaf ⟨by simp, by simpa using hc.1.symm, by simpa using hc.2.symm⟩
  have hboth : ∀ {p q : Pattern Item}, p.IsPrintable → q.IsPrintable →
      ∀ r ∈ [p, q], r.IsPrintable := fun hp hq =>
    List.forall_mem_cons.2 ⟨hp, List.forall_mem_singleton.2 hq⟩
  have hrow : ∀ {p q : Pattern Item}, p.IsPrintable → q.IsPrintable → (seq [p, q]).IsPrintable :=
    fun hp hq => .seq (Nat.le_refl 2) (hboth hp hq)
  have hchoice : ∀ {p q : Pattern Item}, p.IsPrintable → q.IsPrintable →
      (alt [p, q]).IsPrintable := fun hp hq => .alt (Nat.le_refl 2) (hboth hp hq)
  have hsigns : (alt [leaf (.quoted "+"), leaf (.quoted "-")]).IsPrintable :=
    hchoice (hsign (c := '+') (by decide)) (hsign (c := '-') (by decide))
  have hcomment : IsBlankLine "# sums".toList :=
    ⟨by decide, fun _ hc => (Option.some.inj hc).symm⟩
  have hblank : IsBlankLine [] := ⟨List.not_mem_nil, fun _ hc => (by cases hc)⟩
  refine List.forall_mem_cons.2 ⟨hcomment, List.forall_mem_cons.2 ⟨?_,
    List.forall_mem_cons.2 ⟨hblank, List.forall_mem_singleton.2 ?_⟩⟩⟩
  · exact ⟨hname 's' ['u', 'm'] rfl (List.all_eq_true.1 rfl),
      hrow (hword hterm) (.star (hrow hsigns (hword hterm)))⟩
  · have hnumber := hword (hname 'N' ['U', 'M', 'B', 'E', 'R'] rfl (List.all_eq_true.1 rfl))
    have hnames := hword (hname 'N' ['A', 'M', 'E'] rfl (List.all_eq_true.1 rfl))
    exact ⟨hterm, .plus (.opt (hchoice hnumber (.star (.plus hnames))))⟩

theorem readAll_printed_sum :
    printed sumLines =
        "# sums\nsum: term (('+' | '-') term)*\n\nterm: ([NUMBER | (NAME+)*])+\n".toList ∧
      ∃ sum term, readAll (printed sumLines) = .ok [⟨"sum", sum, 2⟩, ⟨"term", term, 4⟩] :=
  ⟨by decide, _, _, (readAll_printed isPrintable_sumLines).1⟩

end Rule
end Offside
