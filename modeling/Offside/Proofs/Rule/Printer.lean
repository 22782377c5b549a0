import Mathlib.Data.List.Basic
import Offside.Grammar.Rule

/-!
Right-hand sides as they are printed. Round brackets stand around a choice or a row that is a member
of a choice or a row, and around what is repeated unless it is a leaf; square brackets say by
themselves where they end. The main statement is that a printed right-hand side is cut into pieces
that are read back to it, whatever it stands in.
-/

namespace Offside

namespace Rule

/-- A letter or an underscore, with letters, digits and underscores behind it. -/
def IsName (name : String) : Prop :=
  ∃ c rest, name.toList = c :: rest ∧ isNameStart c = true ∧ ∀ d ∈ rest, isNameChar d = true

/-- What can stand between quotes. -/
def IsQuotable (text : String) : Prop :=
  text.toList ≠ [] ∧ '\'' ∉ text.toList ∧ '\n' ∉ text.toList

end Rule

namespace Item

def IsPrintable : Item → Prop
  | name text => Rule.IsName text
  | quoted text => Rule.IsQuotable text

def written : Item → List Char
  | name text => text.toList
  | quoted text => '\'' :: (text.toList ++ ['\''])

end Item

namespace Pattern

/-- Right-hand sides that have a printed form. A choice or a row of one is that one itself, and
there is none of nothing. -/
inductive IsPrintable : Pattern Item → Prop
  | leaf {a : Item} (h : a.IsPrintable) : IsPrintable (leaf a)
  | alt {ps : List (Pattern Item)} (hmany : 2 ≤ ps.length) (h : ∀ p ∈ ps, IsPrintable p) :
      IsPrintable (alt ps)
  | seq {ps : List (Pattern Item)} (hmany : 2 ≤ ps.length) (h : ∀ p ∈ ps, IsPrintable p) :
      IsPrintable (seq ps)
  | opt {p : Pattern Item} (h : IsPrintable p) : IsPrintable (opt p)
  | star {p : Pattern Item} (h : IsPrintable p) : IsPrintable (star p)
  | plus {p : Pattern Item} (h : IsPrintable p) : IsPrintable (plus p)

def isLeaf : Pattern Item → Bool
  | leaf _ => true
  | _ => false

/-- Whether the pattern has members. -/
def hasMembers : Pattern Item → Bool
  | alt _ | seq _ => true
  | _ => false

def parenthesized (needed : Bool) (text : List Char) : List Char :=
  if needed then '(' :: (text ++ [')']) else text

mutual

def written : Pattern Item → List Char
  | leaf a => a.written
  | alt ps => [' ', '|', ' '].intercalate (writtenMembers ps)
  | seq ps => [' '].intercalate (writtenMembers ps)
  | opt p => '[' :: (written p ++ [']'])
  | star p => parenthesized (!p.isLeaf) (written p) ++ ['*']
  | plus p => parenthesized (!p.isLeaf) (written p) ++ ['+']

def writtenMembers : List (Pattern Item) → List (List Char)
  | [] => []
  | p :: ps => parenthesized p.hasMembers (written p) :: writtenMembers ps

end

end Pattern

namespace Rule

open Pattern

/-- A text shows pieces, with spaces between them where they are wanted. -/
inductive Shows : List Piece → List Char → Prop
  | nil : Shows [] []
  | space {ps : List Piece} {text : List Char} (h : Shows ps text) : Shows ps (' ' :: text)
  | name {name : String} {ps : List Piece} {text : List Char} (hname : IsName name)
      (hend : ∀ c ∈ text.head?, isNameChar c = false) (h : Shows ps text) :
      Shows (⟨.name, name⟩ :: ps) (name.toList ++ text)
  | quoted {inside : String} {ps : List Piece} {text : List Char} (hinside : IsQuotable inside)
      (h : Shows ps text) :
      Shows (⟨.quoted, inside⟩ :: ps) ('\'' :: (inside.toList ++ '\'' :: text))
  | mark {c : Char} {mark : Mark} {ps : List Piece} {text : List Char}
      (hmark : markOf? c = some mark) (h : Shows ps text) :
      Shows (⟨mark, String.singleton c⟩ :: ps) (c :: text)

variable {ps qs : List Piece} {text text' : List Char} {p : Pattern Item} {b : Bool}

theorem Shows.append (h : Shows ps text) (h' : Shows qs text')
    (hend : ∀ c ∈ text'.head?, isNameChar c = false) : Shows (ps ++ qs) (text ++ text') := by
  induction h with
  | nil => exact h'
  | space _ ih => exact .space ih
  | @name name ps text hname hstop _ ih =>
    rw [List.append_assoc]
    refine .name hname ?_ ih
    cases text with
    | nil => exact hend
    | cons => exact hstop
  | @quoted inside ps text hinside _ ih =>
    show Shows _ ('\'' :: ((inside.toList ++ '\'' :: text) ++ text'))
    rw [List.append_assoc]
    exact .quoted hinside ih
  | mark hmark _ ih => exact .mark hmark ih

/-- A mark at the end takes nothing from what is before it. -/
theorem Shows.concat_mark (h : Shows ps text) {c : Char} {mark : Mark}
    (hmark : markOf? c = some mark) (hname : isNameChar c = false) :
    Shows (ps ++ [⟨mark, String.singleton c⟩]) (text ++ [c]) :=
  h.append (.mark hmark .nil) fun _ hd => Option.some.inj hd ▸ hname

/-- The pieces of a text are read as one more member of the row that is open. -/
def ReadsAsMember (text : List Char) (p : Pattern Item) (repeatable : Bool) : Prop :=
  ∃ ps, Shows ps text ∧ ∀ around c rest,
    readBody around c (ps ++ rest) = readBody around (c.add p repeatable) rest

/-- The pieces of a text are read as a choice that is `p` as soon as it is closed. -/
def ReadsAsBody (text : List Char) (p : Pattern Item) : Prop :=
  ∃ ps c, Shows ps text ∧ c.close = .ok p ∧ ∀ around rest,
    readBody around Choice.empty (ps ++ rest) = readBody around c rest

theorem readsAsMember_leaf {a : Item} (h : a.IsPrintable) :
    ReadsAsMember a.written (leaf a) true := by
  cases a with
  | name name =>
    refine ⟨[⟨.name, name⟩], ?_, fun _ _ _ => rfl⟩
    have hshows : Shows [⟨.name, name⟩] (name.toList ++ []) :=
      .name h (fun _ hc => by cases hc) .nil
    rwa [List.append_nil] at hshows
  | quoted inside => exact ⟨[⟨.quoted, inside⟩], .quoted h .nil, fun _ _ _ => rfl⟩

theorem ReadsAsMember.repeated (h : ReadsAsMember text p true) {c : Char}
    {f : Pattern Item → Pattern Item} (hf : (c = '*' ∧ f = star) ∨ (c = '+' ∧ f = plus)) :
    ReadsAsMember (text ++ [c]) (f p) false := by
  obtain ⟨ps, hshows, hread⟩ := h
  rcases hf with ⟨rfl, rfl⟩ | ⟨rfl, rfl⟩
  all_goals
    refine ⟨_, hshows.concat_mark rfl (by decide), fun around c rest => ?_⟩
    rw [List.append_assoc, hread]
    rfl

theorem ReadsAsMember.body (h : ReadsAsMember text p b) : ReadsAsBody text p := by
  obtain ⟨ps, hshows, hread⟩ := h
  exact ⟨ps, Choice.empty.add p b, hshows, rfl, fun around rest => hread around _ rest⟩

theorem readBody_rpar {c outer : Choice} (h : c.close = .ok p) (around : List (Bracket × Choice))
    (rest : List Piece) :
    readBody ((.round, outer) :: around) c (⟨.rpar, String.singleton ')'⟩ :: rest) =
      readBody around (outer.add p true) rest := by
  rw [readBody]
  simp only [h]
  rfl

theorem readBody_rsqb {c outer : Choice} (h : c.close = .ok p) (around : List (Bracket × Choice))
    (rest : List Piece) :
    readBody ((.square, outer) :: around) c (⟨.rsqb, String.singleton ']'⟩ :: rest) =
      readBody around (outer.add (.opt p) false) rest := by
  rw [readBody]
  simp only [h]
  rfl

theorem ReadsAsBody.parenthesized (h : ReadsAsBody text p) :
    ReadsAsMember ('(' :: (text ++ [')'])) p true := by
  obtain ⟨ps, c, hshows, hclose, hread⟩ := h
  refine ⟨_, .mark rfl (hshows.concat_mark rfl (by decide)), fun around outer rest => ?_⟩
  rw [List.cons_append, List.append_assoc]
  calc readBody around outer (⟨.lpar, String.singleton '('⟩ :: (ps ++ _))
      = readBody ((.round, outer) :: around) Choice.empty (ps ++ _) := rfl
    _ = readBody ((.round, outer) :: around) c _ := hread _ _
    _ = readBody around (outer.add p true) rest := readBody_rpar hclose around rest

theorem ReadsAsBody.optional (h : ReadsAsBody text p) :
    ReadsAsMember ('[' :: (text ++ [']'])) (opt p) false := by
  obtain ⟨ps, c, hshows, hclose, hread⟩ := h
  refine ⟨_, .mark rfl (hshows.concat_mark rfl (by decide)), fun around outer rest => ?_⟩
  rw [List.cons_append, List.append_assoc]
  calc readBody around outer (⟨.lsqb, String.singleton '['⟩ :: (ps ++ _))
      = readBody ((.square, outer) :: around) Choice.empty (ps ++ _) := rfl
    _ = readBody ((.square, outer) :: around) c _ := hread _ _
    _ = readBody around (outer.add (opt p) false) rest := readBody_rsqb hclose around rest

/-- A member as it is printed is read as one. -/
def MemberReads (p : Pattern Item) : Prop :=
  ∃ b, ReadsAsMember (parenthesized p.hasMembers p.written) p b

/-- Members with spaces between them are read one after the other. -/
theorem reads_row {p : Pattern Item} {ps : List (Pattern Item)} (h : ∀ q ∈ p :: ps, MemberReads q) :
    ∃ qs b, Shows qs ([' '].intercalate (writtenMembers (p :: ps))) ∧
      ∀ around (c : Choice) rest, readBody around c (qs ++ rest) =
        readBody around ⟨c.alternatives, (p :: ps).reverse ++ c.row, b⟩ rest := by
  induction ps generalizing p with
  | nil =>
    obtain ⟨b, qs, hshows, hread⟩ := h p List.mem_cons_self
    exact ⟨qs, b, by rwa [writtenMembers, writtenMembers, List.intercalate_singleton], hread⟩
  | cons q ps ih =>
    obtain ⟨hp, hps⟩ := List.forall_mem_cons.1 h
    obtain ⟨_, qs, hshows, hread⟩ := hp
    obtain ⟨qs', b, hshows', hread'⟩ := ih hps
    refine ⟨qs ++ qs', b, ?_, fun around c rest => ?_⟩
    · rw [writtenMembers, writtenMembers, List.intercalate_cons_cons, List.append_assoc]
      exact hshows.append hshows'.space fun _ hc => Option.some.inj hc ▸ by decide
    · rw [List.append_assoc, hread, hread', List.reverse_cons (a := p), List.append_assoc]
      rfl

/-- Members with bars between them are read as alternatives, of which the last one is still open. -/
theorem reads_choice {p : Pattern Item} {ps : List (Pattern Item)}
    (h : ∀ q ∈ p :: ps, MemberReads q) :
    ∃ qs, Shows qs ([' ', '|', ' '].intercalate (writtenMembers (p :: ps))) ∧
      ∀ alternatives, ∃ c : Choice, c.bar = .ok ⟨(p :: ps).reverse ++ alternatives, [], false⟩ ∧
        ∀ around rest, readBody around ⟨alternatives, [], false⟩ (qs ++ rest) =
          readBody around c rest := by
  induction ps generalizing p with
  | nil =>
    obtain ⟨b, qs, hshows, hread⟩ := h p List.mem_cons_self
    refine ⟨qs, by rwa [writtenMembers, writtenMembers, List.intercalate_singleton], ?_⟩
    intro alternatives
    exact ⟨Choice.add p b ⟨alternatives, [], false⟩, rfl, fun around rest => hread around _ rest⟩
  | cons q ps ih =>
    obtain ⟨hp, hps⟩ := List.forall_mem_cons.1 h
    obtain ⟨b, qs, hshows, hread⟩ := hp
    obtain ⟨qs', hshows', hread'⟩ := ih hps
    refine ⟨qs ++ ⟨.bar, String.singleton '|'⟩ :: qs', ?_, fun alternatives => ?_⟩
    · have hbar : Shows (⟨.bar, String.singleton '|'⟩ :: qs') _ := .mark rfl hshows'.space
      rw [writtenMembers, writtenMembers, List.intercalate_cons_cons, List.append_assoc]
      exact hshows.append hbar.space fun _ hc => Option.some.inj hc ▸ by decide
    · obtain ⟨c, hbar, hrest⟩ := hread' (p :: alternatives)
      refine ⟨c, ?_, fun around rest => ?_⟩
      · rw [hbar, List.reverse_cons (a := p), List.append_assoc]
        rfl
      · rw [List.append_assoc, hread]
        exact hrest around rest

theorem close_row {ps : List (Pattern Item)} (hmany : 2 ≤ ps.length) (b : Bool) :
    Choice.close ⟨[], ps.reverse, b⟩ = .ok (seq ps) := by
  obtain ⟨p, q, ps, rfl⟩ : ∃ p q rest, ps = p :: q :: rest := by
    match ps, hmany with
    | p :: q :: rest, _ => exact ⟨p, q, rest, rfl⟩
  have hne : (p :: q :: ps).reverse.isEmpty = false := by simp
  unfold Choice.close Choice.bar
  simp only [hne, List.reverse_reverse]
  rfl

theorem close_choice {ps : List (Pattern Item)} (hmany : 2 ≤ ps.length) {c : Choice}
    (hbar : c.bar = .ok ⟨ps.reverse, [], false⟩) : c.close = .ok (alt ps) := by
  obtain ⟨p, q, ps, rfl⟩ : ∃ p q rest, ps = p :: q :: rest := by
    match ps, hmany with
    | p :: q :: rest, _ => exact ⟨p, q, rest, rfl⟩
  unfold Choice.close
  rw [hbar]
  show Except.ok (ofChoice (p :: q :: ps).reverse.reverse) = _
  rw [List.reverse_reverse]
  rfl

theorem readsAsBody_seq {ps : List (Pattern Item)} (hmany : 2 ≤ ps.length)
    (h : ∀ p ∈ ps, MemberReads p) : ReadsAsBody (seq ps).written (seq ps) := by
  cases ps with
  | nil => cases hmany
  | cons p ps =>
    obtain ⟨qs, b, hshows, hread⟩ := reads_row h
    refine ⟨qs, ⟨[], (p :: ps).reverse, b⟩, by rwa [written], close_row hmany b, ?_⟩
    intro around rest
    rw [hread, Choice.empty, List.append_nil]

theorem readsAsBody_alt {ps : List (Pattern Item)} (hmany : 2 ≤ ps.length)
    (h : ∀ p ∈ ps, MemberReads p) : ReadsAsBody (alt ps).written (alt ps) := by
  cases ps with
  | nil => cases hmany
  | cons p ps =>
    obtain ⟨qs, hshows, hread⟩ := reads_choice h
    obtain ⟨c, hbar, hrest⟩ := hread []
    rw [List.append_nil] at hbar
    exact ⟨qs, c, by rwa [written], close_choice hmany hbar, hrest⟩

/-- What is repeated is a leaf or stands in round brackets. -/
theorem reads_operand (h : p.IsPrintable) (hbody : ReadsAsBody p.written p) :
    ReadsAsMember (parenthesized (!p.isLeaf) p.written) p true := by
  cases h with
  | leaf ha =>
    rw [written]
    exact readsAsMember_leaf ha
  | _ => exact hbody.parenthesized

/-- A printed right-hand side is read back, as a member and as a whole. -/
theorem reads_written (h : p.IsPrintable) : MemberReads p ∧ ReadsAsBody p.written p := by
  have halone : ∀ {q : Pattern Item} {b : Bool}, q.hasMembers = false →
      ReadsAsMember q.written q b → MemberReads q ∧ ReadsAsBody q.written q := by
    intro q b hq hread
    refine ⟨⟨b, ?_⟩, hread.body⟩
    rwa [hq, parenthesized, if_neg Bool.false_ne_true]
  induction h with
  | leaf ha => exact halone rfl (by rw [written]; exact readsAsMember_leaf ha)
  | alt hmany _ ih =>
    have hbody := readsAsBody_alt hmany fun p hp => (ih p hp).1
    exact ⟨⟨true, hbody.parenthesized⟩, hbody⟩
  | seq hmany _ ih =>
    have hbody := readsAsBody_seq hmany fun p hp => (ih p hp).1
    exact ⟨⟨true, hbody.parenthesized⟩, hbody⟩
  | opt _ ih => exact halone rfl (by rw [written]; exact ih.2.optional)
  | star hp ih =>
    exact halone rfl (by rw [written]; exact (reads_operand hp ih.2).repeated (Or.inl ⟨rfl, rfl⟩))
  | plus hp ih =>
    exact halone rfl (by rw [written]; exact (reads_operand hp ih.2).repeated (Or.inr ⟨rfl, rfl⟩))

end Rule
end Offside
