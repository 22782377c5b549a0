import Mathlib.Logic.Relation
import Offside.Proofs.Dfa.Live
import Offside.Proofs.Grammar.Conflicts
import Offside.Proofs.Pattern.Relabelling

/-!
What rules begin with. A rule text derives forms by putting rows of labels in the place of rules,
and a terminal is in the first set of a rule if a form that the rule derives begins with it. The
rows that count here are those that the automata accept, and they must not be empty: a rule that can
be left out altogether hides what stands behind it.
-/

namespace Offside.Grammar

open Relation

variable {rows rows' : Symbol → List Label → Prop} {s : Symbol} {a b l : Label}

/-- A rule in a form is replaced by a row that may stand for it. -/
inductive Rewrites (rows : Symbol → List Label → Prop) : List Label → List Label → Prop
  | rewrite {before after row : List Label} {s : Symbol} (h : rows s row) :
      Rewrites rows (before ++ .rule s :: after) (before ++ row ++ after)

/-- A rule derives a form that begins with a label. -/
def CanBegin (rows : Symbol → List Label → Prop) (s : Symbol) (l : Label) : Prop :=
  ∃ form, ReflTransGen (Rewrites rows) [.rule s] (l :: form)

theorem Rewrites.mono (hrows : ∀ s row, rows s row → rows' s row) {form form' : List Label}
    (h : Rewrites rows form form') : Rewrites rows' form form' := by
  cases h with
  | rewrite h => exact .rewrite (hrows _ _ h)

theorem CanBegin.mono (hrows : ∀ s row, rows s row → rows' s row) (h : CanBegin rows s l) :
    CanBegin rows' s l := by
  obtain ⟨form, hform⟩ := h
  exact ⟨form, ReflTransGen.mono (fun _ _ => Rewrites.mono hrows) _ _ hform⟩

/-- A label is a rule that a row with a certain first label may stand for. -/
def Opens (rows : Symbol → List Label → Prop) (a b : Label) : Prop :=
  ∃ s row, a = .rule s ∧ rows s (b :: row)

/-- Rows that are not empty leave a form its first label or put another one there. -/
theorem Rewrites.exists_head (hrows : ∀ s, ¬rows s []) {as form : List Label}
    (h : Rewrites rows (a :: as) form) :
    ∃ b bs, form = b :: bs ∧ ReflTransGen (Opens rows) a b := by
  generalize hstart : a :: as = start at h
  cases h with
  | @rewrite before after row s h =>
    cases before with
    | nil =>
      obtain ⟨rfl, rfl⟩ := List.cons.inj hstart
      cases row with
      | nil => exact absurd h (hrows s)
      | cons b row => exact ⟨b, row ++ as, rfl, .single ⟨s, row, rfl, h⟩⟩
    | cons c before =>
      obtain ⟨rfl, _⟩ := List.cons.inj hstart
      exact ⟨a, before ++ row ++ after, rfl, .refl⟩

theorem exists_head_of_rewrites (hrows : ∀ s, ¬rows s []) {as form : List Label}
    (h : ReflTransGen (Rewrites rows) (a :: as) form) :
    ∃ b bs, form = b :: bs ∧ ReflTransGen (Opens rows) a b := by
  induction h with
  | refl => exact ⟨a, as, rfl, .refl⟩
  | tail _ hstep ih =>
    obtain ⟨b, bs, rfl, hb⟩ := ih
    obtain ⟨c, cs, rfl, hc⟩ := hstep.exists_head hrows
    exact ⟨c, cs, rfl, hb.trans hc⟩

theorem exists_rewrites_of_opens (h : ReflTransGen (Opens rows) a b) (as : List Label) :
    ∃ bs, ReflTransGen (Rewrites rows) (a :: as) (b :: bs) := by
  induction h with
  | refl => exact ⟨as, .refl⟩
  | tail _ hstep ih =>
    obtain ⟨bs, hbs⟩ := ih
    obtain ⟨s, row, rfl, hrow⟩ := hstep
    exact ⟨row ++ bs, hbs.tail (@Rewrites.rewrite _ [] _ _ _ hrow)⟩

/-- Where no row is empty, only the first label of a form matters. -/
theorem canBegin_iff (hrows : ∀ s, ¬rows s []) :
    CanBegin rows s l ↔ ReflTransGen (Opens rows) (.rule s) l := by
  constructor
  · rintro ⟨form, hform⟩
    obtain ⟨b, bs, heq, hb⟩ := exists_head_of_rewrites hrows hform
    rwa [(List.cons.inj heq).1]
  · exact fun h => exists_rewrites_of_opens h []

section

variable {labels : List Label} {dfas : RuleDfas} {firsts : First.Sets}

theorem opens_of_mem_get (hcomputed : First.Computed labels dfas firsts)
    (hopens : ∀ s arc b, arc ∈ First.startArcs dfas s → labels[arc.1]? = some b →
      ∃ row, rows s (b :: row))
    {n : Nat} (hs : (firsts.lookup s).isSome) (hn : n ∈ First.get firsts s)
    (hl : labels[n]? = some l) :
    ReflTransGen (Opens rows) (.rule s) l := by
  -- a rule that stands first was found earlier
  induction hrank : First.rank firsts s using Nat.strong_induction_on generalizing s with
  | _ rank ih =>
    obtain ⟨arc, harc, hbegins⟩ := (hcomputed.mem_get_iff hs n).1 hn
    split at hbegins
    · next sub hsub =>
      obtain ⟨row, hrow⟩ := hopens s arc _ harc hsub
      have hlt := hcomputed.rank_lt hs harc hsub
      exact .head ⟨s, row, rfl, hrow⟩
        (ih _ (hrank ▸ hlt) (hcomputed.ready hs arc harc sub hsub) hbegins rfl)
    · next label _ hlabel =>
      rw [hbegins, hlabel] at hl
      obtain rfl := Option.some.inj hl
      obtain ⟨row, hrow⟩ := hopens s arc _ harc hlabel
      exact .single ⟨s, row, rfl, hrow⟩
    · exact hbegins.elim

/-- Nothing stands for a terminal but itself. -/
theorem eq_of_opens_terminal (ha : a.isTerminal = true) (h : ReflTransGen (Opens rows) a l) :
    a = l := by
  rcases h.cases_head with heq | ⟨_, ⟨s, _, rfl, _⟩, _⟩
  · exact heq
  · cases ha

theorem mem_get_of_opens (hcomputed : First.Computed labels dfas firsts)
    (hsets : ∀ rule ∈ dfas, (firsts.lookup rule.1).isSome)
    (hopens : ∀ s b row, rows s (b :: row) →
      ∃ arc ∈ First.startArcs dfas s, labels[arc.1]? = some b)
    (hl : l.isTerminal = true) (h : ReflTransGen (Opens rows) a l) (s : Symbol) (ha : a = .rule s) :
    ∃ n ∈ First.get firsts s, labels[n]? = some l := by
  induction h using ReflTransGen.head_induction_on generalizing s with
  | refl =>
    rw [ha] at hl
    cases hl
  | @head a c hstep hrest ih =>
    obtain ⟨s', row, rfl, hrow⟩ := hstep
    obtain rfl := Label.rule.inj ha
    obtain ⟨arc, harc, hc⟩ := hopens s' c row hrow
    obtain ⟨rule, hrule, rfl⟩ := List.mem_map.1 (First.mem_keys_of_startArcs harc)
    have hmem {n : Nat} := hcomputed.mem_get_iff (hsets rule hrule) n
    by_cases hterminal : c.isTerminal = true
    · obtain rfl := eq_of_opens_terminal hterminal hrest
      refine ⟨arc.1, hmem.2 ⟨arc, harc, ?_⟩, hc⟩
      rw [hc]
      cases c with
      | token => rfl
      | keyword => rfl
      | rule => cases hterminal
    · cases c with
      | token => exact absurd rfl hterminal
      | keyword => exact absurd rfl hterminal
      | rule sub =>
        obtain ⟨n, hn, hnl⟩ := ih sub rfl
        refine ⟨n, hmem.2 ⟨arc, harc, ?_⟩, hnl⟩
        rw [hc]
        exact hn

end

/-- A row of labels is what a word of items stands for. -/
def Spells (row : List Label) (word : List Item) : Prop :=
  List.Forall₂ (fun item l => Label.ofItem item = .ok l) word row

/-- The rows that the right-hand sides of rules denote. -/
def Denotes (rules : List Rule) (s : Symbol) (row : List Label) : Prop :=
  ∃ r ∈ rules, Symbol.ofName? r.name = some s ∧ ∃ word ∈ r.body.language, Spells row word

/-- The rows that the automata of rules accept, but for the empty row. -/
def Fills (rules : List Rule) (s : Symbol) (row : List Label) : Prop :=
  row ≠ [] ∧ ∃ r ∈ rules, Symbol.ofName? r.name = some s ∧ ∃ word ∈ r.body.reading, Spells row word

theorem not_fills_nil (rules : List Rule) (s : Symbol) : ¬Fills rules s [] := fun h => h.1 rfl

theorem spells_nil {word : List Item} (h : Spells [] word) : word = [] := by
  cases h
  rfl

theorem exists_spells {labels : List Label} {word : List Item}
    (h : ∀ item ∈ word, Label.Known labels item) : ∃ row, Spells row word := by
  induction word with
  | nil => exact ⟨[], .nil⟩
  | cons item word ih =>
    obtain ⟨hitem, hword⟩ := List.forall_mem_cons.1 h
    obtain ⟨l, _, hl⟩ := hitem
    obtain ⟨row, hrow⟩ := ih hword
    exact ⟨l :: row, .cons hl hrow⟩

/-- Rows that are denoted are accepted, and none of them is empty if no right-hand side can be left
out. -/
theorem fills_of_denotes {rules : List Rule} (hrules : ∀ r ∈ rules, [] ∉ r.body.language)
    {row : List Label} (h : Denotes rules s row) : Fills rules s row := by
  obtain ⟨r, hr, hname, word, hword, hspells⟩ := h
  refine ⟨?_, r, hr, hname, word, Pattern.language_le_reading _ hword, hspells⟩
  rintro rfl
  rw [spells_nil hspells] at hword
  exact hrules r hr hword

theorem denotes_of_fills {rules : List Rule}
    (hrules : ∀ r ∈ rules, r.body.reading ≤ r.body.language)
    {row : List Label} (h : Fills rules s row) : Denotes rules s row := by
  obtain ⟨_, r, hr, hname, word, hword, hspells⟩ := h
  exact ⟨r, hr, hname, word, hrules r hr hword, hspells⟩

/-- How an automaton comes from a rule. -/
structure ReadAs (labels : List Label) (r : Rule) (entry : Symbol × List DfaState) : Prop where
  name : Symbol.ofName? r.name = some entry.1
  states : ∃ before after p, Label.number before r.body = .ok (p, after) ∧ after <+: labels ∧
    entry.2 = Dfa.ofPattern p

theorem ReadAs.mono {labels labels' : List Label} {r : Rule} {entry : Symbol × List DfaState}
    (h : ReadAs labels r entry) (hsub : labels <+: labels') : ReadAs labels' r entry := by
  obtain ⟨before, after, p, hp, hafter, hentry⟩ := h.states
  exact ⟨h.name, before, after, p, hp, hafter.trans hsub, hentry⟩

theorem readAs_of_addRule {acc acc' : List Label × RuleDfas} {r : Rule}
    (h : addRule acc r = .ok acc') :
    acc.1 <+: acc'.1 ∧ ∃ entry, acc'.2 = acc.2 ++ [entry] ∧ ReadAs acc'.1 r entry := by
  unfold addRule at h
  split at h
  · cases h
  · next s hs =>
    split at h
    · cases h
    · obtain ⟨⟨p, labels⟩, hp, h⟩ := bind_eq_ok.1 h
      cases h
      exact ⟨(Label.number_eq_map (List.prefix_refl _) hp).1, _, rfl, hs, _, _, p, hp,
        List.prefix_refl _, rfl⟩

theorem readAs_of_foldlM {rules : List Rule} {acc : List Label × RuleDfas}
    (h : rules.foldlM addRule ([], []) = .ok acc) : List.Forall₂ (ReadAs acc.1) rules acc.2 := by
  refine foldlM_induction (motive := fun done acc => List.Forall₂ (ReadAs acc.1) done acc.2) h
    .nil ?_
  intro done r acc₁ acc₂ _ hdone hstep
  obtain ⟨hsub, entry, hentries, hentry⟩ := readAs_of_addRule hstep
  rw [hentries]
  exact List.rel_append (hdone.imp fun _ _ hread => hread.mono hsub) (.cons hentry .nil)

section

variable {labels : List Label} {dfas : RuleDfas} {rules : List Rule} {r : Rule}
  {entry : Symbol × List DfaState}

theorem ReadAs.known (h : ReadAs labels r entry) :
    ∀ item ∈ r.body.leaves, Label.Known labels item := by
  obtain ⟨_, _, _, hp, hafter, _⟩ := h.states
  exact fun item hitem => ((Label.number_eq_map hafter hp).2.2 item hitem).mono hafter

/-- What the start of a rule's automaton has an arc for are the numbers of the items that can be
read first. -/
theorem ReadAs.next?_iff (h : ReadAs labels r entry) (hbody : r.body.Choosable) {n : Nat} :
    (∃ q, Dfa.next? entry.2 0 n = some q) ↔
      ∃ item word, item :: word ∈ r.body.reading ∧ Label.numberOf labels item = n := by
  obtain ⟨_, _, p, hp, hafter, hentry⟩ := h.states
  have hchoosable := (Label.number_spec hbody hp).choosable p List.mem_cons_self
  obtain ⟨_, rfl, _⟩ := Label.number_eq_map hafter hp
  have haccepts : ∀ w, Dfa.accepts entry.2 w = true ↔
      ∃ word ∈ r.body.reading, word.map (Label.numberOf labels) = w := by
    intro w
    rw [hentry, Dfa.accepts_ofPattern, Pattern.reading_map]
    exact Iff.rfl
  constructor
  · rintro ⟨q, hq⟩
    have hrun : Dfa.run entry.2 0 [n] = some q := by rw [Dfa.run_cons, hq]; rfl
    obtain ⟨v, hv, _⟩ := Dfa.continues_ofPattern hchoosable [n] q (hentry ▸ hrun)
    have hword : Dfa.accepts entry.2 (n :: v) = true := by
      rw [Dfa.accepts, Dfa.acceptsFrom_cons, hq, hentry]
      exact hv
    obtain ⟨word, hread, hmap⟩ := (haccepts _).1 hword
    obtain ⟨item, word, rfl, hitem, _⟩ := List.map_eq_cons_iff.1 hmap
    exact ⟨item, word, hread, hitem⟩
  · rintro ⟨item, word, hread, hitem⟩
    have hword := (haccepts _).2 ⟨_, hread, rfl⟩
    rw [List.map_cons, hitem, Dfa.accepts, Dfa.acceptsFrom_cons] at hword
    cases hnext : Dfa.next? entry.2 0 n with
    | none =>
      rw [hnext] at hword
      cases hword
    | some q => exact ⟨q, rfl⟩

theorem mem_startArcs_iff (hread : RulesRead labels dfas) (hentry : entry ∈ dfas) {n q : Nat} :
    (n, q) ∈ First.startArcs dfas entry.1 ↔ Dfa.next? entry.2 0 n = some q := by
  obtain ⟨p, hp⟩ := hread.ofPattern entry hentry
  have hascending := Dfa.ofPattern_ascending p
  rw [First.startArcs, lookup_of_mem hread.symbols_nodup hentry]
  rw [← hp] at hascending
  obtain ⟨s, states⟩ := entry
  cases states with
  | nil => exact ⟨fun h => absurd h List.not_mem_nil, fun h => by cases h⟩
  | cons state states =>
    have hnodup := (hascending state List.mem_cons_self).imp Nat.ne_of_lt
    exact ⟨lookup_of_mem hnodup, mem_of_lookup⟩

/-- The start of a rule has an arc for a label exactly if a row that fills the rule begins with
it. -/
theorem exists_fills_of_startArcs (hforall : List.Forall₂ (ReadAs labels) rules dfas)
    (hbodies : ∀ r ∈ rules, r.body.Choosable) (hread : RulesRead labels dfas) {arc : Nat × Nat}
    (harc : arc ∈ First.startArcs dfas s) (hl : labels[arc.1]? = some l) :
    ∃ row, Fills rules s (l :: row) := by
  obtain ⟨entry, hentry, rfl⟩ := List.mem_map.1 (First.mem_keys_of_startArcs harc)
  obtain ⟨r, hr, hreadAs⟩ := exists_of_mem_right hforall hentry
  have hnext := (mem_startArcs_iff hread hentry).1 harc
  obtain ⟨item, word, hword, hitem⟩ := (hreadAs.next?_iff (hbodies r hr)).1 ⟨_, hnext⟩
  have hknown : ∀ x ∈ item :: word, Label.Known labels x := fun x hx =>
    hreadAs.known x (Pattern.reading_le_wordsOver _ hword x hx)
  obtain ⟨hfirst, hrest⟩ := List.forall_mem_cons.1 hknown
  obtain ⟨l', hl', hlabel⟩ := hfirst
  rw [← hitem, Label.getElem?_numberOf hl' hlabel] at hl
  obtain rfl := Option.some.inj hl
  obtain ⟨row, hrow⟩ := exists_spells hrest
  exact ⟨row, List.cons_ne_nil _ _, r, hr, hreadAs.name, _, hword, .cons hlabel hrow⟩

theorem exists_startArcs_of_fills (hforall : List.Forall₂ (ReadAs labels) rules dfas)
    (hbodies : ∀ r ∈ rules, r.body.Choosable) (hread : RulesRead labels dfas) {row : List Label}
    (h : Fills rules s (l :: row)) : ∃ arc ∈ First.startArcs dfas s, labels[arc.1]? = some l := by
  obtain ⟨_, r, hr, hname, word, hword, hspells⟩ := h
  cases hspells with
  | @cons item _ word _ hlabel _ =>
    obtain ⟨entry, hentry, hreadAs⟩ := exists_of_mem_left hforall hr
    obtain rfl := Option.some.inj (hreadAs.name.symm.trans hname)
    obtain ⟨q, hq⟩ := (hreadAs.next?_iff (hbodies r hr)).2 ⟨item, word, hword, rfl⟩
    refine ⟨_, (mem_startArcs_iff hread hentry).2 hq, ?_⟩
    have hleaf := Pattern.reading_le_wordsOver _ hword item List.mem_cons_self
    obtain ⟨l', hl', hlabel'⟩ := hreadAs.known item hleaf
    obtain rfl := Except.ok.inj (hlabel'.symm.trans hlabel)
    exact Label.getElem?_numberOf hl' hlabel'

end

/-- The first set of a rule of an accepted rule text rises and holds the terminals with which a form
can begin that the rule derives by rows that fill rules. These are all the terminals with which a
derived form can begin, if no rule can be left out, and they are no others, if the automata accept
no more than the rules denote. -/
theorem first_of_ofText {text : List Char} {g : Grammar} (h : ofText text = .ok g) :
    ∃ rules, Rule.readAll text = .ok rules ∧
      (∀ r ∈ rules, ∃ t ∈ g.rules, Symbol.ofName? r.name = some t.symbol) ∧
      ∀ t ∈ g.rules, First.Proper g.labels t.first ∧
        (∀ l, l.isTerminal = true →
          ((∃ n ∈ t.first, g.labels[n]? = some l) ↔ CanBegin (Fills rules) t.symbol l)) ∧
        ((∀ r ∈ rules, [] ∉ r.body.language) → ∀ l, l.isTerminal = true →
          CanBegin (Denotes rules) t.symbol l → ∃ n ∈ t.first, g.labels[n]? = some l) ∧
        ((∀ r ∈ rules, r.body.reading ≤ r.body.language) → ∀ l, l.isTerminal = true →
          (∃ n ∈ t.first, g.labels[n]? = some l) → CanBegin (Denotes rules) t.symbol l) := by
  obtain ⟨rules, hrules, h⟩ := bind_eq_ok.1 h
  obtain ⟨⟨labels, dfas⟩, hfold, h⟩ := bind_eq_ok.1 h
  obtain ⟨_, _, h⟩ := bind_eq_ok.1 h
  obtain ⟨firsts, hfirsts, h⟩ := bind_eq_ok.1 h
  obtain ⟨tables, htables, h⟩ := bind_eq_ok.1 h
  obtain rfl := Except.ok.inj h
  obtain ⟨hcomputed, hsets⟩ := First.compute_spec hfirsts
  have hread := foldlM_addRule_spec hfold
  have hreadAs := readAs_of_foldlM hfold
  have hbodies := Rule.choosable_of_readAll hrules
  have htableOf := (forall₂_of_mapM htables).imp fun _ _ => ruleTable_spec
  refine ⟨rules, hrules, fun r hr => ?_, fun t ht => ?_⟩
  · obtain ⟨entry, hentry, hread'⟩ := exists_of_mem_left hreadAs hr
    have hlookup : (dfas.lookup entry.1).isSome := by
      rw [lookup_of_mem hread.symbols_nodup hentry]
      rfl
    obtain ⟨t, ht⟩ := Option.isSome_iff_exists.1 (rule?_isSome htableOf hlookup)
    obtain ⟨hmem, hsymbol⟩ := mem_of_rule? ht
    exact ⟨t, hmem, by rw [hsymbol]; exact hread'.name⟩
  · obtain ⟨rule, hrule, htable⟩ := exists_of_mem_right htableOf (mem_tables ht)
    have hiff : ∀ l, l.isTerminal = true →
        ((∃ n ∈ t.first, labels[n]? = some l) ↔ CanBegin (Fills rules) t.symbol l) := by
      intro l hl
      rw [canBegin_iff (not_fills_nil rules), htable.first, htable.symbol]
      constructor
      · rintro ⟨n, hn, hnl⟩
        exact opens_of_mem_get hcomputed
          (fun s arc b harc hb => exists_fills_of_startArcs hreadAs hbodies hread harc hb)
          (hsets rule hrule) hn hnl
      · exact fun hopens => mem_get_of_opens hcomputed hsets
          (fun s b row hrow => exists_startArcs_of_fills hreadAs hbodies hread hrow) hl hopens
          rule.1 rfl
    refine ⟨?_, hiff, fun hfull l hl hbegins => ?_, fun hexact l hl hn => ?_⟩
    · rw [htable.first]
      exact First.proper_of_compute hfirsts rule.1
    · exact (hiff l hl).2 (hbegins.mono fun _ _ => fills_of_denotes hfull)
    · exact ((hiff l hl).1 hn).mono fun _ _ => denotes_of_fills hexact

/-- A file begins with a statement, which may be left out. -/
def optionText : List Char := "file_input: stmt NAME\nstmt: [NUMBER]\n".toList

def optionRules : List Rule :=
  [⟨"file_input", .seq [.leaf (.name "stmt"), .leaf (.name "NAME")], 1⟩,
    ⟨"stmt", .opt (.leaf (.name "NUMBER")), 2⟩]

def optionFile : RuleTable :=
  { symbol := .fileInput
    states := [⟨false, [(0, 1)], [(2, .push .stmt 1)]⟩, ⟨false, [(1, 2)], [(1, .shift 2)]⟩,
      ⟨true, [], []⟩]
    first := [2] }

def optionGrammar : Grammar :=
  ⟨[.rule .stmt, .token .word, .token .numeral],
    [optionFile, ⟨.stmt, [⟨true, [(2, 1)], [(2, .shift 1)]⟩, ⟨true, [], []⟩], [2]⟩]⟩

theorem ofText_optionText : ofText optionText = .ok optionGrammar := by decide +kernel

theorem readAll_optionText : Rule.readAll optionText = .ok optionRules := by cbv

theorem first_of_ofText_option :
    ofText optionText = .ok optionGrammar ∧
      ∃ rules, Rule.readAll optionText = .ok rules ∧
        CanBegin (Fills rules) .fileInput (.token .numeral) := by
  refine ⟨ofText_optionText, ?_⟩
  obtain ⟨rules, hrules, _, htables⟩ := first_of_ofText ofText_optionText
  obtain ⟨_, hiff, _⟩ := htables optionFile List.mem_cons_self
  exact ⟨rules, hrules, (hiff (.token .numeral) rfl).1 ⟨2, List.mem_cons_self, rfl⟩⟩

/-- A terminal can begin what a rule of a text derives, and is not in the rule's first set. -/
def FirstMisses (text : List Char) (l : Label) : Prop :=
  ∃ g rules t, ofText text = .ok g ∧ Rule.readAll text = .ok rules ∧ t ∈ g.rules ∧
    CanBegin (Denotes rules) t.symbol l ∧ ¬∃ n ∈ t.first, g.labels[n]? = some l

/-- A terminal is in the first set of a rule of a text, and begins nothing that the rule derives. -/
def FirstExceeds (text : List Char) (l : Label) : Prop :=
  ∃ g rules t, ofText text = .ok g ∧ Rule.readAll text = .ok rules ∧ t ∈ g.rules ∧
    (∃ n ∈ t.first, g.labels[n]? = some l) ∧ ¬CanBegin (Denotes rules) t.symbol l

/-- What stands behind a rule that is left out can begin a form. -/
theorem firstMisses_optionText : FirstMisses optionText (.token .word) := by
  refine ⟨optionGrammar, optionRules, optionFile, ofText_optionText, readAll_optionText,
    List.mem_cons_self, ⟨[], ?_⟩, by decide⟩
  have hfile : Denotes optionRules .fileInput [.rule .stmt, .token .word] := by
    refine ⟨_, List.mem_cons_self, rfl, [.name "stmt", .name "NAME"], ?_,
      .cons rfl (.cons rfl .nil)⟩
    simp only [Pattern.language, Pattern.languageOfRow, mul_one]
    exact Language.append_mem_mul (a := [Item.name "stmt"]) rfl rfl
  have hstmt : Denotes optionRules .stmt [] := by
    refine ⟨_, List.mem_cons_of_mem _ List.mem_cons_self, rfl, [], ?_, .nil⟩
    rw [Pattern.language]
    exact Or.inl rfl
  have hstep : Rewrites (Denotes optionRules) [.rule .fileInput] [.rule .stmt, .token .word] :=
    @Rewrites.rewrite _ [] [] _ _ hfile
  exact .tail (.single hstep) (@Rewrites.rewrite _ [] _ [] _ hstmt)

/-- A name that numbers may follow, both of which may be left out. -/
def repeatedText : List Char := "eval_input: [NAME NUMBER*] ENDMARKER\n".toList

def repeatedRule : Rule :=
  ⟨"eval_input", .seq [.opt (.seq [.leaf (.name "NAME"), .star (.leaf (.name "NUMBER"))]),
    .leaf (.name "ENDMARKER")], 1⟩

def repeatedTable : RuleTable :=
  { symbol := .evalInput
    states := [⟨false, [(0, 1), (1, 1), (2, 2)], [(0, .shift 1), (1, .shift 1), (2, .shift 2)]⟩,
      ⟨false, [(1, 1), (2, 2)], [(1, .shift 1), (2, .shift 2)]⟩, ⟨true, [], []⟩]
    first := [0, 1, 2] }

theorem denotes_repeatedRule {row : List Label} (h : Denotes [repeatedRule] s row) :
    row.head? = some (.token .word) ∨ row.head? = some (.token .endMarker) := by
  obtain ⟨r, hr, _, word, hword, hspells⟩ := h
  obtain rfl := List.mem_singleton.1 hr
  simp only [repeatedRule, Pattern.language, Pattern.languageOfRow, mul_one] at hword
  obtain ⟨v, hv, w, rfl, rfl⟩ := hword
  rcases hv with rfl | ⟨_, rfl, _, _, rfl⟩
  · cases hspells with
    | cons hlabel _ =>
      cases hlabel
      exact Or.inr rfl
  · cases hspells with
    | cons hlabel _ =>
      cases hlabel
      exact Or.inl rfl

/-- A repetition at the end of an option can be read alone, and can begin no form. -/
theorem firstExceeds_repeatedText : FirstExceeds repeatedText (.token .numeral) := by
  refine ⟨⟨[.token .word, .token .numeral, .token .endMarker], [repeatedTable]⟩, [repeatedRule],
    repeatedTable, by decide +kernel, by cbv, List.mem_cons_self, by decide, fun hbegins => ?_⟩
  have hne : ∀ s, ¬Denotes [repeatedRule] s [] := fun s h => by simpa using denotes_repeatedRule h
  rcases ((canBegin_iff hne).1 hbegins).cases_head with heq | ⟨l, ⟨s, row, _, hrow⟩, hrest⟩
  · cases heq
  · rcases denotes_repeatedRule hrow with hl | hl
    · obtain rfl := Option.some.inj hl
      cases eq_of_opens_terminal rfl hrest
    · obtain rfl := Option.some.inj hl
      cases eq_of_opens_terminal rfl hrest

/-- First sets are wrong both ways. -/
theorem first_inexact :
    FirstMisses optionText (.token .word) ∧ FirstExceeds repeatedText (.token .numeral) :=
  ⟨firstMisses_optionText, firstExceeds_repeatedText⟩

end Offside.Grammar
