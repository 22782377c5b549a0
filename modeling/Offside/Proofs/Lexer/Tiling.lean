import Offside.Proofs.Lexer.LongComments
import Offside.Proofs.Lexer.Places

/-!
Tilings. The lexemes of a text that is read to its end marker tile it: put together in order, with
the gaps between them, they are the text again. The spans of lexemes are therefore in order, and
each cuts the text of its lexeme out of the whole. A lexeme past the largest position has no span,
and then the text that it took up is lost.
-/

namespace Offside

open Text Cursor

/-- From a byte position on, a text is made of gaps and of the texts of lexemes. -/
inductive Tiled : Nat → List Lexeme → List Char → Prop
  | last {start : Nat} {gap : List Char} (hgap : Gap gap) : Tiled start [] gap
  | bare {start : Nat} {x : Lexeme} {xs : List Lexeme} {rest : List Char}
      (hkind : Lexer.IsBare x.kind) (hspan : x.span? = none) (htext : x.text = "")
      (h : Tiled start xs rest) :
      Tiled start (x :: xs) rest
  | token {start : Nat} {x : Lexeme} {xs : List Lexeme} {gap read rest : List Char}
      (hkind : ¬Lexer.IsBare x.kind) (hgap : Gap gap)
      (hpragma : x.kind = .typeIgnore → EndsInPragma gap)
      (hspan : x.span? = Span.ofRange? (start + byteLength gap)
        (start + byteLength gap + byteLength read))
      (htext : x.text = if x.span?.isSome then String.ofList read else "")
      (h : Tiled (start + byteLength gap + byteLength read) xs rest) :
      Tiled start (x :: xs) (gap ++ (read ++ rest))

/-- A text that is told again: gaps, and between them the texts of lexemes in order. -/
inductive Retold : List Lexeme → List Char → Prop
  | last {gap : List Char} (hgap : Gap gap) : Retold [] gap
  | cons {x : Lexeme} {xs : List Lexeme} {gap rest : List Char} (hgap : Gap gap)
      (h : Retold xs rest) : Retold (x :: xs) (gap ++ (x.text.toList ++ rest))

namespace Tiled

variable {start : Nat} {x : Lexeme} {xs : List Lexeme} {s : Span} {gap text : List Char}

theorem after_gap (hgap : Gap gap) (h : Tiled (start + byteLength gap) xs text) :
    Tiled start xs (gap ++ text) := by
  generalize hpos : start + byteLength gap = position at h
  induction h with
  | last hgap' => exact .last (hgap.append hgap')
  | bare hkind hspan htext _ ih => exact .bare hkind hspan htext (ih hpos)
  | @token position x xs gap' read rest hkind hgap' hpragma hspan htext h _ =>
    have hstart : position + byteLength gap' = start + byteLength (gap ++ gap') := by
      rw [byteLength_append, ← Nat.add_assoc, hpos]
    rw [hstart] at hspan h
    rw [← List.append_assoc]
    refine .token hkind (hgap.append hgap') ?_ hspan htext h
    intro hignore
    obtain ⟨before, front, hbefore, hfront, rfl⟩ := hpragma hignore
    exact ⟨gap ++ before, front, hgap.append hbefore, hfront, (List.append_assoc _ _ _).symm⟩

/-- No span reaches back before the position where the tiling starts. -/
theorem le_start (h : Tiled start xs text) (hs : s ∈ xs.filterMap Lexeme.span?) :
    start ≤ s.start := by
  induction h with
  | last => cases hs
  | bare _ hspan _ _ ih =>
    rw [List.filterMap_cons_none hspan] at hs
    exact ih hs
  | @token start x xs gap read rest _ _ _ hspan _ _ ih =>
    obtain ⟨y, hy, hs'⟩ := List.mem_filterMap.1 hs
    rcases List.mem_cons.1 hy with rfl | hy
    · rw [hspan, Span.ofRange?_eq_some_iff] at hs'
      rw [hs'.2.2]
      exact Nat.le_add_right _ _
    · have := ih (List.mem_filterMap.2 ⟨y, hy, hs'⟩)
      omega

/-- Spans are in order. -/
theorem pairwise_spans (h : Tiled start xs text) :
    (xs.filterMap Lexeme.span?).Pairwise fun a b => a.stop ≤ b.start := by
  induction h with
  | last => exact .nil
  | bare _ hspan _ _ ih => rwa [List.filterMap_cons_none hspan]
  | @token start x xs gap read rest _ _ _ hspan _ h ih =>
    cases hx : x.span? with
    | none => rwa [List.filterMap_cons_none hx]
    | some s =>
      rw [List.filterMap_cons_some hx]
      refine .cons (fun b hb => ?_) ih
      rw [hx, eq_comm, Span.ofRange?_eq_some_iff] at hspan
      rw [hspan.2.2]
      exact h.le_start hb

/-- A span lies in the text, is as long as what its lexeme says, and cuts that out. -/
theorem slice_span {before : List Char} (h : Tiled (byteLength before) xs text) (hx : x ∈ xs)
    (hs : s ∈ x.span?) :
    s.start ≤ s.stop ∧ s.stop ≤ byteLength (before ++ text) ∧
      s.length? = some (byteLength x.text.toList) ∧
      slice? (before ++ text) s.start s.stop = some x.text.toList := by
  generalize hpos : byteLength before = position at h
  induction h generalizing before with
  | last => cases hx
  | bare _ hspan _ _ ih =>
    rcases List.mem_cons.1 hx with rfl | hx
    · rw [hspan] at hs
      cases hs
    · exact ih hx hpos
  | @token start y ys gap read rest _ _ _ hspan htext _ ih =>
    rcases List.mem_cons.1 hx with rfl | hx
    · have hsome := Option.mem_def.1 hs
      have htext' : x.text = String.ofList read := by
        rw [htext, hsome]
        rfl
      rw [hspan, Span.ofRange?_eq_some_iff, ← hpos, ← byteLength_append] at hsome
      rw [hsome.2.2, htext', String.toList_ofList, ← List.append_assoc]
      refine ⟨Nat.le_add_right _ _, ?_, ?_, slice?_append _ _ _⟩
      · rw [byteLength_append _ (read ++ rest), byteLength_append read]
        exact Nat.add_le_add_left (Nat.le_add_right _ _) _
      · rw [Span.length?, if_pos (Nat.le_add_right _ _), Nat.add_sub_cancel_left]
    · have hpos' : byteLength (before ++ (gap ++ read)) =
          start + byteLength gap + byteLength read := by
        rw [byteLength_append, byteLength_append, hpos, ← Nat.add_assoc]
      have hrest := ih hx hpos'
      rwa [List.append_assoc, List.append_assoc] at hrest

/-- In a text that is not too long, every lexeme but the bare ones has a span. -/
theorem span?_isSome (h : Tiled start xs text) (hsize : start + byteLength text ≤ maxPosition)
    (hx : x ∈ xs) (hkind : ¬Lexer.IsBare x.kind) : x.span?.isSome = true := by
  induction h with
  | last => cases hx
  | bare hbare _ _ _ ih =>
    rcases List.mem_cons.1 hx with rfl | hx
    · exact absurd hbare hkind
    · exact ih hsize hx
  | @token start y ys gap read rest _ _ _ hspan _ _ ih =>
    rw [byteLength_append, byteLength_append] at hsize
    rcases List.mem_cons.1 hx with rfl | hx
    · have hsome := (Span.ofRange?_eq_some_iff (start + byteLength gap)
        (start + byteLength gap + byteLength read) _).2 ⟨by omega, by omega, rfl⟩
      rw [hspan, hsome]
      rfl
    · exact ih (by omega) hx

/-- If every lexeme but the bare ones has a span, no text is lost. -/
theorem retold (h : Tiled start xs text)
    (hspans : ∀ x ∈ xs, x.span? = none → Lexer.IsBare x.kind) : Retold xs text := by
  induction h with
  | last hgap => exact .last hgap
  | @bare start x xs rest _ _ htext _ ih =>
    have hcons := Retold.cons (x := x) .nil (ih fun y hy => hspans y (List.mem_cons_of_mem _ hy))
    rwa [htext] at hcons
  | @token start x xs gap read rest hkind hgap _ _ htext _ ih =>
    have hsome : x.span?.isSome = true := by
      rw [Option.isSome_iff_ne_none]
      exact fun hnone => hkind (hspans x List.mem_cons_self hnone)
    have hcons := Retold.cons (x := x) hgap (ih fun y hy => hspans y (List.mem_cons_of_mem _ hy))
    rwa [htext, hsome, if_pos rfl, String.toList_ofList] at hcons

end Tiled

/-- Without the texts of lexemes, what is told again is a gap. -/
theorem Retold.gap {xs : List Lexeme} {text : List Char} (h : Retold xs text)
    (htexts : ∀ x ∈ xs, x.text = "") : Gap text := by
  induction h with
  | last hgap => exact hgap
  | @cons x xs gap rest hgap _ ih =>
    rw [htexts x List.mem_cons_self]
    exact hgap.append (ih fun y hy => htexts y (List.mem_cons_of_mem _ hy))

/-- A lexeme has its text if it has a span. -/
theorem Cursor.text_lexeme (kind : Kind) (read : List Char) (cur : Cursor) :
    (cur.lexeme kind read).text =
      if (cur.lexeme kind read).span?.isSome then String.ofList read else "" := by
  unfold lexeme
  split <;> rfl

namespace Lexer

variable {lx ly : Lexer} {x : Lexeme} {xs : List Lexeme} {ts : List Token}

/-- What is read for a lexeme goes before what is read for those behind it. -/
theorem Hands.tiled (h : Hands lx.leaveLine.cursor ly x)
    (htiled : Tiled ly.leaveLine.cursor.offset xs ly.leaveLine.cursor.rest) :
    Tiled lx.leaveLine.cursor.offset (x :: xs) lx.leaveLine.cursor.rest := by
  cases h with
  | @bare kind gap hkind hgap hcrosses hline _ =>
    rw [leaveLine_of_same_line hline, hcrosses.offset] at htiled
    rw [hcrosses.rest]
    exact .bare hkind rfl rfl (htiled.after_gap hgap)
  | @token kind gap read tail at' behind hkind hgap hpragma hcrosses hread htail htail' =>
    rw [htail'.offset] at htiled
    have hbehind := htiled.after_gap htail
    rw [← htail'.rest, hread.offset, hcrosses.offset] at hbehind
    rw [hcrosses.rest, hread.rest]
    refine .token ?_ hgap ?_ ?_ (text_lexeme _ _ _) hbehind
    · rwa [kind_lexeme]
    · rwa [kind_lexeme]
    · rw [span?_lexeme, hcrosses.offset]

theorem Yields.tiled (h : Yields lx xs ly) (hend : Gap ly.leaveLine.cursor.rest) :
    Tiled lx.leaveLine.cursor.offset xs lx.leaveLine.cursor.rest := by
  induction h with
  | nil => exact .last hend
  | cons hnext _ ih => exact (next_hands hnext).tiled (ih hend)

/-- Reading a text to its end marker loses nothing and repeats nothing: the lexemes handed out tile
it. Their spans lie in the text and in order, and each cuts the text of its lexeme out of the whole;
in a text that is not too long for spans, only lexemes that take up no text have none. Wherever that
holds, the gaps and the texts of the lexemes are the text again. -/
theorem tiled_of_tokens {asyncAlways : Bool} {s : Source}
    (h : (ofSource asyncAlways s).tokens = (.ok ts, ly)) :
    ∃ xs, Yields (ofSource asyncAlways s) xs ly ∧ xs.map Lexeme.token = ts ∧
      Tiled 0 xs s.text ∧
      (∀ x ∈ xs, ∀ span ∈ x.span?, span.start ≤ span.stop ∧ span.stop ≤ byteLength s.text ∧
        span.length? = some (byteLength x.text.toList) ∧
        slice? s.text span.start span.stop = some x.text.toList) ∧
      ((xs.filterMap Lexeme.span?).Pairwise fun a b => a.stop ≤ b.start) ∧
      (byteLength s.text ≤ maxPosition → ∀ x ∈ xs, x.span? = none → IsBare x.kind) ∧
      ((∀ x ∈ xs, x.span? = none → IsBare x.kind) → Retold xs s.text) := by
  obtain ⟨xs, e, hyields, he, -, rfl⟩ := exists_yields_of_tokens h
  have hend : Gap ly.leaveLine.cursor.rest := by
    obtain ⟨lz, -, hlast⟩ := hyields.append_inv
    cases hlast with
    | cons hnext hnil =>
      cases hnil
      rw [rest_of_endMarker hnext he]
      exact .nil
  have htiled : Tiled 0 (xs ++ [e]) s.text := hyields.tiled hend
  refine ⟨_, hyields, rfl, htiled, fun x hx span hspan => ?_, htiled.pairwise_spans,
    fun hsize x hx hnone => ?_, htiled.retold⟩
  · have hstart : Tiled (byteLength []) (xs ++ [e]) s.text := htiled
    exact hstart.slice_span hx hspan
  · by_contra hkind
    have hsome := htiled.span?_isSome ((Nat.zero_add _).symm ▸ hsize) hx hkind
    rw [hnone] at hsome
    cases hsome

/-- A word and a comment behind it. -/
theorem tiled_of_tokens_comment :
    ∃ xs, xs.map Lexeme.token = [⟨.word, "x", 1, some 0⟩, ⟨.newline, "", 1, some 4⟩,
        ⟨.endMarker, "", 2, none⟩] ∧
      Tiled 0 xs ['x', ' ', '#', '!', '\r', '\n'] ∧
      Retold xs ['x', ' ', '#', '!', '\r', '\n'] ∧
      (xs.filterMap Lexeme.span?).Pairwise fun a b => a.stop ≤ b.start := by
  let lx := ofSource false ⟨['x', ' ', '#', '!', '\r', '\n'], none⟩
  have h : lx.tokens = (.ok [⟨.word, "x", 1, some 0⟩, ⟨.newline, "", 1, some 4⟩,
      ⟨.endMarker, "", 2, none⟩], lx.tokens.2) := Prod.ext (by decide +kernel) rfl
  obtain ⟨xs, _, hts, htiled, _, hspans, hbare, hretold⟩ :=
    tiled_of_tokens (s := ⟨['x', ' ', '#', '!', '\r', '\n'], none⟩) h
  exact ⟨xs, hts, htiled, hretold (hbare (by decide)), hspans⟩

/-- A long comment in Latin-1 puts the word behind it past the largest position. The word is handed
out without its text, and the text of the source cannot be told again. -/
theorem not_retold_of_latin1 :
    ∃ s ts ly, Source.decode .cookie (some "latin-1")
        (0x23 :: (List.replicate 2147483648 0xE9 ++ [10, 0x78, 10])) = .ok s ∧
      (ofSource false s).tokens = (.ok ts, ly) ∧
      ¬∃ xs, xs.map Lexeme.token = ts ∧ Retold xs s.text := by
  have htokens : (ofSource false ⟨longComment 2147483648 ++ (['\n'] ++ (['x'] ++ ['\n'])),
      some "iso-8859-1"⟩).tokens.1 =
        .ok [⟨.word, "", 2, none⟩, ⟨.newline, "", 2, none⟩, ⟨.endMarker, "", 3, none⟩] :=
    tokens_longComment_of_le rfl (Or.inl rfl) rfl (by decide) (by decide) (by decide) rfl
  refine ⟨_, _, _, Source.decode_longComment (by decide) (by decide), Prod.ext htokens rfl, ?_⟩
  rintro ⟨xs, hts, hretold⟩
  have htexts : ∀ x ∈ xs, x.text = "" := by
    intro x hx
    have hmem : x.token ∈ xs.map Lexeme.token := List.mem_map_of_mem hx
    rw [hts] at hmem
    have hall : ∀ t ∈ [(⟨.word, "", 2, none⟩ : Token), ⟨.newline, "", 2, none⟩,
        ⟨.endMarker, "", 3, none⟩], t.text = "" := by decide
    exact hall _ hmem
  have hword : Gap ['x', '\n'] := (hretold.gap htexts).behind_feed
  exact absurd hword.head_of_cons (by decide)

end Lexer
end Offside
