import Mathlib.Data.List.Nodup
import Offside.Proofs.Text.Quoted
import Offside.Tree.Dump

/-!
A dump has a line for each node and determines the tree up to the places of its rules. The spaces
in front of a line tell the depth of its node, since no name starts with one. What a line shows
can be read off it, since a name holds no space, a quoted text tells where it ends, and no digit
follows a number. The depths of the nodes, parents before children, are those of one tree only.
-/

namespace Offside

namespace NodeKind

def name : NodeKind → String
  | .token k => k.name
  | .symbol s => s.name

/-- Every kind of node. -/
def all : List NodeKind := Kind.all.map .token ++ Symbol.all.map .symbol

variable {k k' : NodeKind}

theorem mem_all (k : NodeKind) : k ∈ all := by
  cases k with
  | token k => exact List.mem_append_left _ (List.mem_map_of_mem (Kind.mem_all k))
  | symbol s => exact List.mem_append_right _ (List.mem_map_of_mem (Symbol.mem_all s))

/-- No token and no rule share a name. -/
theorem name_inj (h : k.name = k'.name) : k = k' := by
  have hnodup : (all.map name).Nodup := by decide +kernel
  exact List.inj_on_of_nodup_map hnodup (mem_all k) (mem_all k') h

theorem name_ne_nil (k : NodeKind) : k.name.toList ≠ [] := by
  have hall : ∀ k ∈ all, k.name.toList ≠ [] := by decide +kernel
  exact hall k (mem_all k)

theorem plain_of_mem_name {c : Char} (h : c ∈ k.name.toList) : c ≠ ' ' ∧ c ≠ '\n' := by
  have hall : ∀ k ∈ all, (k.name.toList.all fun c => c != ' ' && c != '\n') = true := by
    decide +kernel
  have hc := List.all_eq_true.1 (hall k (mem_all k)) c h
  simpa using hc

end NodeKind

namespace Node

variable {n n' : Node} {after after' : List (Nat × Node)} {depth : Nat}

/-- A token has a text. -/
def Labelled : Node → Prop
  | mk (.token _) t _ _ _ => t.isSome
  | mk (.symbol _) _ _ _ _ => True

mutual

/-- Every token of the tree has a text. -/
def Spelled : Node → Prop
  | mk k t l c ns => Labelled (mk k t l c ns) ∧ SpelledAll ns

def SpelledAll : List Node → Prop
  | [] => True
  | n :: ns => Spelled n ∧ SpelledAll ns

end

/-- A node by itself, without the place of a rule. -/
def label : Node → Node
  | mk (.token k) t l c _ => mk (.token k) t l c []
  | mk (.symbol s) t _ _ _ => mk (.symbol s) t 0 none []

mutual

/-- The tree without the places of its rules, those below a token too. -/
def placeless : Node → Node
  | mk k t l c ns => (label (mk k t l c ns)).withChildren (placelessAll ns)

def placelessAll : List Node → List Node
  | [] => []
  | n :: ns => placeless n :: placelessAll ns

end

/-! ### What a line shows -/

def columnText : Option Nat → List Char
  | some c => ':' :: Nat.toDigits 10 c
  | none => []

theorem toList_positionText (line : Nat) (column? : Option Nat) :
    (positionText line column?).toList =
      ' ' :: '@' :: (Nat.toDigits 10 line ++ columnText column?) := by
  cases column? <;>
    simp [positionText, columnText, String.toList_append, Nat.toString_eq_repr, Nat.toList_repr]

theorem columnText_inj {c c' : Option Nat} (h : columnText c = columnText c') : c = c' := by
  cases c with
  | none =>
    cases c' with
    | none => rfl
    | some c' => cases h
  | some c =>
    cases c' with
    | none => cases h
    | some c' =>
      have hdigits := (List.cons.inj h).2
      exact congrArg some (Text.toDigits_inj (by decide) (by decide) hdigits)

theorem positionText_inj {l l' : Nat} {c c' : Option Nat}
    (h : (positionText l c).toList = (positionText l' c').toList) : l = l' ∧ c = c' := by
  have hcolumn : ∀ c : Option Nat, ∀ d ∈ (columnText c).head?, d.isDigit = false := by
    intro c d hd
    cases c with
    | none => cases hd
    | some c =>
      cases hd
      decide
  simp only [toList_positionText, List.cons.injEq, true_and] at h
  obtain ⟨hline, hrest⟩ := Text.decimal_append_inj (hcolumn c) (hcolumn c') h
  exact ⟨hline, columnText_inj hrest⟩

/-- What the line of a node shows behind the name. -/
def details : Node → List Char
  | mk (.token _) t l c _ => ' ' :: ((Text.quoted (t.getD "")).toList ++ (positionText l c).toList)
  | mk (.symbol _) (some t) _ _ _ => ' ' :: (Text.quoted t).toList
  | mk (.symbol _) none _ _ _ => []

theorem toList_heading (n : Node) : n.heading.toList = n.kind.name.toList ++ n.details := by
  obtain ⟨_ | _, _ | _, l, c, ns⟩ := n <;>
    simp [heading, details, kind, NodeKind.name, String.toList_append]

theorem heading_label (n : Node) : n.label.heading = n.heading := by
  obtain ⟨_ | _, _ | _, l, c, ns⟩ := n <;> rfl

theorem details_head? (n : Node) : ∀ c ∈ n.details.head?, (c != ' ') = false := by
  obtain ⟨_ | _, _ | _, l, c, ns⟩ := n <;> simp [details]

/-- Of two nodes of one kind, with their texts if they are tokens. -/
theorem label_eq_of_details (hkind : n.kind = n'.kind) (hn : n.Labelled) (hn' : n'.Labelled)
    (h : n.details = n'.details) : n.label = n'.label := by
  obtain ⟨k, t, l, c, ns⟩ := n
  obtain ⟨k', t', l', c', ns'⟩ := n'
  obtain rfl : k = k' := hkind
  cases k with
  | token k =>
    obtain ⟨t, rfl⟩ := Option.isSome_iff_exists.1 hn
    obtain ⟨t', rfl⟩ := Option.isSome_iff_exists.1 hn'
    obtain ⟨htext, hplace⟩ := Text.quoted_append_inj (List.cons.inj h).2
    obtain ⟨rfl, rfl⟩ := positionText_inj hplace
    obtain rfl : t = t' := htext
    rfl
  | symbol s =>
    cases t with
    | none =>
      cases t' with
      | none => rfl
      | some t' => cases h
    | some t =>
      cases t' with
      | none => cases h
      | some t' =>
        have hquoted := congrArg (· ++ []) (List.cons.inj h).2
        obtain ⟨rfl, -⟩ := Text.quoted_append_inj hquoted
        rfl

/-- A line determines the node by itself. -/
theorem label_eq_of_heading (hn : n.Labelled) (hn' : n'.Labelled) (h : n.heading = n'.heading) :
    n.label = n'.label := by
  have hname : ∀ k : NodeKind, ∀ c ∈ k.name.toList, (c != ' ') = true := by
    intro k c hc
    exact bne_iff_ne.2 (NodeKind.plain_of_mem_name hc).1
  have hlists := congrArg String.toList h
  rw [toList_heading, toList_heading] at hlists
  obtain ⟨hnames, hdetails⟩ :=
    Text.append_inj_of_head (hname _) n.details_head? (hname _) n'.details_head? hlists
  have hkind := NodeKind.name_inj (String.toList_inj.1 hnames)
  exact label_eq_of_details hkind hn hn' hdetails

theorem feed_not_mem_heading (n : Node) : '\n' ∉ n.heading.toList := by
  have hname : ∀ k : NodeKind, '\n' ∉ k.name.toList := fun k h =>
    (NodeKind.plain_of_mem_name h).2 rfl
  have hdigits : ∀ k : Nat, '\n' ∉ Nat.toDigits 10 k := by
    intro k h
    exact absurd (Nat.isDigit_of_mem_toDigits (by decide) (by decide) h) (by decide)
  have hposition : ∀ l c, '\n' ∉ (positionText l c).toList := by
    intro l c
    cases c <;> simp [toList_positionText, columnText, hdigits]
  rw [toList_heading]
  obtain ⟨_ | _, _ | _, l, c, ns⟩ := n <;>
    simp [details, hname, hposition, Text.feed_not_mem_quoted]

/-- The line of a node at a depth. -/
def row (e : Nat × Node) : List Char := List.replicate (2 * e.1) ' ' ++ e.2.heading.toList

theorem feed_not_mem_row (e : Nat × Node) : '\n' ∉ row e := by
  simp [row, feed_not_mem_heading]

/-- What a line tells: a depth and a node by itself. -/
def entry (e : Nat × Node) : Nat × Node := (e.1, e.2.label)

theorem row_entry (e : Nat × Node) : row (entry e) = row e := by
  rw [row, row, entry, heading_label]

theorem entry_eq_of_row {e e' : Nat × Node} (he : e.2.Labelled) (he' : e'.2.Labelled)
    (h : row e = row e') : entry e = entry e' := by
  have hspaces : ∀ k : Nat, ∀ c ∈ List.replicate k ' ', (c == ' ') = true := by
    intro k c hc
    exact beq_iff_eq.2 (List.eq_of_mem_replicate hc)
  have hhead : ∀ n : Node, ∀ c ∈ n.heading.toList.head?, (c == ' ') = false := by
    intro n c hc
    rw [toList_heading, List.head?_append_of_ne_nil _ n.kind.name_ne_nil] at hc
    exact beq_eq_false_iff_ne.2 (NodeKind.plain_of_mem_name (List.mem_of_mem_head? hc)).1
  obtain ⟨hindent, hheading⟩ :=
    Text.append_inj_of_head (hspaces _) (hhead _) (hspaces _) (hhead _) h
  have hdepth := congrArg List.length hindent
  rw [List.length_replicate, List.length_replicate] at hdepth
  have hlabel := label_eq_of_heading he he' (String.toList_inj.1 hheading)
  exact Prod.ext (by simp only [entry]; omega) hlabel

/-! ### The lines of a tree -/

theorem toList_dump (n : Node) : n.dump.toList = (n.outline.map row).flatMap (· ++ ['\n']) := by
  rw [dump, String.toList_join, List.flatMap_map, List.flatMap_map]
  apply List.flatMap_congr
  intro e _
  simp [row, indentation]

/-- Lines that end in line feeds are told by the whole. -/
theorem entries_eq_of_rows {es es' : List (Nat × Node)} (hes : ∀ e ∈ es, e.2.Labelled)
    (hes' : ∀ e ∈ es', e.2.Labelled)
    (h : (es.map row).flatMap (· ++ ['\n']) = (es'.map row).flatMap (· ++ ['\n'])) :
    es.map entry = es'.map entry := by
  induction es generalizing es' with
  | nil =>
    cases es' with
    | nil => rfl
    | cons e' es' => simp at h
  | cons e es ih =>
    cases es' with
    | nil => simp at h
    | cons e' es' =>
      simp only [List.map_cons, List.flatMap_cons, List.append_assoc, List.singleton_append] at h
      obtain ⟨hrow, hrest⟩ := Text.append_cons_inj (feed_not_mem_row e) (feed_not_mem_row e') h
      have hentry := entry_eq_of_row (hes e List.mem_cons_self) (hes' e' List.mem_cons_self) hrow
      have hentries := ih (fun e he => hes e (List.mem_cons_of_mem _ he))
        (fun e he => hes' e (List.mem_cons_of_mem _ he)) hrest
      rw [List.map_cons, List.map_cons, hentry, hentries]

mutual

theorem labelled_of_mem_outlineOnto : ∀ (n : Node) (depth : Nat) {after : List (Nat × Node)},
    n.Spelled → (∀ e ∈ after, e.2.Labelled) → ∀ e ∈ outlineOnto after depth n, e.2.Labelled
  | mk k t l c ns, depth, after, h, hafter, e, he => by
    rw [Spelled] at h
    rw [outlineOnto] at he
    rcases List.mem_cons.1 he with rfl | he
    · exact h.1
    · exact labelled_of_mem_outlineOntoAll ns (depth + 1) h.2 hafter e he

theorem labelled_of_mem_outlineOntoAll :
    ∀ (ns : List Node) (depth : Nat) {after : List (Nat × Node)}, SpelledAll ns →
      (∀ e ∈ after, e.2.Labelled) → ∀ e ∈ outlineOntoAll after depth ns, e.2.Labelled
  | [], _, _, _, hafter, e, he => hafter e he
  | n :: ns, depth, after, h, hafter, e, he => by
    rw [SpelledAll] at h
    rw [outlineOntoAll] at he
    have hns := labelled_of_mem_outlineOntoAll ns depth h.2 hafter
    exact labelled_of_mem_outlineOnto n depth h.1 hns e he

end

mutual

theorem length_outlineOnto (after : List (Nat × Node)) (depth : Nat) :
    ∀ n : Node, (outlineOnto after depth n).length = n.count + after.length
  | mk k t l c ns => by
    rw [outlineOnto, count, List.length_cons, length_outlineOntoAll after (depth + 1) ns]
    omega

theorem length_outlineOntoAll (after : List (Nat × Node)) (depth : Nat) :
    ∀ ns : List Node, (outlineOntoAll after depth ns).length = countAll ns + after.length
  | [] => by simp [outlineOntoAll, countAll]
  | n :: ns => by
    have hns := length_outlineOntoAll after depth ns
    rw [outlineOntoAll, countAll, length_outlineOnto _ depth n, hns]
    omega

end

mutual

/-- The places of rules have no line. -/
theorem entries_placeless : ∀ (n : Node) (depth : Nat) {after after' : List (Nat × Node)},
    after.map entry = after'.map entry →
    (outlineOnto after depth n.placeless).map entry = (outlineOnto after' depth n).map entry
  | mk k t l c ns, depth, after, after', h => by
    have hns := entries_placelessAll ns (depth + 1) h
    cases k <;> simp [placeless, label, withChildren, outlineOnto, entry, hns]

theorem entries_placelessAll :
    ∀ (ns : List Node) (depth : Nat) {after after' : List (Nat × Node)},
      after.map entry = after'.map entry →
      (outlineOntoAll after depth (placelessAll ns)).map entry =
        (outlineOntoAll after' depth ns).map entry
  | [], _, _, _, h => h
  | n :: ns, depth, after, after', h => by
    rw [placelessAll, outlineOntoAll, outlineOntoAll]
    have hns := entries_placelessAll ns depth h
    exact entries_placeless n depth hns

end

/-- The nodes that follow stand less deep. -/
def Outside (depth : Nat) (after : List (Nat × Node)) : Prop := ∀ e ∈ after.head?, e.1 < depth

/-- What follows the children of a node starts at its own depth at most. -/
theorem outside_outlineOntoAll (h : Outside depth after) (ns : List Node) :
    Outside (depth + 1) (outlineOntoAll after depth ns) := by
  intro e he
  cases ns with
  | nil => exact Nat.lt_succ_of_lt (h e he)
  | cons n ns =>
    obtain ⟨k, t, l, c, children⟩ := n
    rw [outlineOntoAll, outlineOnto] at he
    cases he
    exact Nat.lt_succ_self depth

theorem Outside.map_entry_ne (h : Outside depth after) (n : Node) (ns : List Node) :
    after.map entry ≠ (outlineOntoAll after' depth (n :: ns)).map entry := by
  intro heq
  obtain ⟨k, t, l, c, children⟩ := n
  cases after with
  | nil => simp [outlineOntoAll, outlineOnto] at heq
  | cons e after =>
    have hdepth : e.1 = depth := congrArg Prod.fst (List.cons.inj heq).1
    have hlt := h e rfl
    omega

/-- Siblings end where a node stands less deep. So the depths tell them, and what follows them. -/
theorem placelessAll_eq_of_entries : ∀ {depth : Nat} {after after' : List (Nat × Node)}
    (ns ns' : List Node), Outside depth after → Outside depth after' →
    (outlineOntoAll after depth ns).map entry = (outlineOntoAll after' depth ns').map entry →
    placelessAll ns = placelessAll ns' ∧ after.map entry = after'.map entry
  | _, _, _, [], [], _, _, h => ⟨rfl, h⟩
  | _, _, _, [], n' :: ns', hafter, _, h => absurd h (hafter.map_entry_ne n' ns')
  | _, _, _, n :: ns, [], _, hafter', h => absurd h.symm (hafter'.map_entry_ne n ns)
  | depth, after, after', mk k t l c children :: ns, mk k' t' l' c' children' :: ns', hafter,
      hafter', h => by
    obtain ⟨hentry, hrest⟩ := List.cons.inj h
    have hlabel : label (mk k t l c children) = label (mk k' t' l' c' children') :=
      congrArg Prod.snd hentry
    -- behind the children come the siblings, which stand less deep than they do
    obtain ⟨hchildren, hsiblings⟩ := placelessAll_eq_of_entries children children'
      (outside_outlineOntoAll hafter ns) (outside_outlineOntoAll hafter' ns') hrest
    obtain ⟨hns, hafters⟩ := placelessAll_eq_of_entries ns ns' hafter hafter' hsiblings
    refine ⟨?_, hafters⟩
    rw [placelessAll, placelessAll, placeless, placeless, hlabel, hchildren, hns]

/-! ### Trees by their dumps -/

theorem entries_eq_of_dump (h : n.Spelled) (h' : n'.Spelled) (hdump : n.dump = n'.dump) :
    n.outline.map entry = n'.outline.map entry := by
  have hlabelled : ∀ n : Node, n.Spelled → ∀ e ∈ n.outline, e.2.Labelled := by
    intro n h
    exact labelled_of_mem_outlineOnto n 0 h (by simp)
  have hrows := congrArg String.toList hdump
  rw [toList_dump, toList_dump] at hrows
  exact entries_eq_of_rows (hlabelled n h) (hlabelled n' h') hrows

theorem dump_eq_of_entries (h : n.outline.map entry = n'.outline.map entry) :
    n.dump = n'.dump := by
  have hrows : ∀ n : Node, n.outline.map row = (n.outline.map entry).map row := by
    intro n
    rw [List.map_map]
    exact List.map_congr_left fun e _ => (row_entry e).symm
  apply String.toList_inj.1
  rw [toList_dump, toList_dump, hrows n, hrows n', h]

theorem entries_eq_iff :
    n.outline.map entry = n'.outline.map entry ↔ n.placeless = n'.placeless := by
  constructor
  · intro hentries
    have hends : Outside 0 [] := by simp [Outside]
    have hroots := placelessAll_eq_of_entries [n] [n'] hends hends hentries
    exact (List.cons.inj hroots.1).1
  · intro hplaceless
    calc n.outline.map entry = n.placeless.outline.map entry := (entries_placeless n 0 rfl).symm
      _ = n'.placeless.outline.map entry := by rw [hplaceless]
      _ = n'.outline.map entry := entries_placeless n' 0 rfl

/-- A dump has a line for each node, and it determines the tree up to the places of its rules. -/
theorem dump_determines (h : n.Spelled) (h' : n'.Spelled) :
    (∃ lines : List (List Char), lines.length = n.count ∧ (∀ line ∈ lines, '\n' ∉ line) ∧
      n.dump.toList = lines.flatMap (· ++ ['\n'])) ∧
    (n.dump = n'.dump ↔ n.placeless = n'.placeless) := by
  refine ⟨⟨n.outline.map row, ?_, ?_, toList_dump n⟩, ?_⟩
  · simp only [List.length_map, outline, length_outlineOnto, List.length_nil, Nat.add_zero]
  · intro line hline
    obtain ⟨e, -, rfl⟩ := List.mem_map.1 hline
    exact feed_not_mem_row e
  · rw [← entries_eq_iff]
    exact ⟨entries_eq_of_dump h h', dump_eq_of_entries⟩

/-- A text that imitates the end of its line and a line of its own. -/
def imitation : Node :=
  branch .exprStmt 1 (some 0) [leaf ⟨.word, "a\" @1:0\n  NAME \"b", 1, some 0⟩]

def imitated : Node :=
  branch .exprStmt 1 (some 0) [leaf ⟨.word, "a", 1, some 0⟩, leaf ⟨.word, "b", 1, some 0⟩]

theorem dump_imitation_ne :
    imitation.Spelled ∧ imitated.Spelled ∧ imitation.dump ≠ imitated.dump := by
  have h : imitation.Spelled := by simp [imitation, branch, leaf, Spelled, SpelledAll, Labelled]
  have h' : imitated.Spelled := by simp [imitated, branch, leaf, Spelled, SpelledAll, Labelled]
  refine ⟨h, h', ?_⟩
  intro hdump
  have hplaceless := (dump_determines h h').2.1 hdump
  have hcount := congrArg count hplaceless
  exact absurd hcount (by decide)

end Node
end Offside
