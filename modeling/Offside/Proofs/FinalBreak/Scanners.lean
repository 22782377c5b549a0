import Offside.Proofs.Lexer.BeforeBreaks

/-!
Literals before a final line feed. A literal that ends at all ends before the line feed, so that it
is what it is without it.
-/

namespace Offside.Literal

open Text

variable {quote : Char} {width : Nat}

/-- A lone line feed ends no body. -/
theorem bodyFrom_newline (hquote : isQuote quote = true) (read : List Char) (seen : Nat) :
    (bodyFrom quote width read seen ['\n']).error? ≠ none := by
  have hne : '\n' ≠ quote := by
    rintro rfl
    exact absurd hquote (by decide)
  by_cases h : (isBreak '\n' && width != 3) = true
  · rw [bodyFrom_broken hne (by decide) h]
    exact Option.some_ne_none _
  · rw [bodyFrom_plain hne (by decide) h]
    exact bodyFrom_nil _ _

/-- A body that ends before a final line feed ends where it ends without it. -/
theorem bodyFrom_concat (hquote : isQuote quote = true) (read : List Char) (seen : Nat)
    (text : List Char) (h : (bodyFrom quote width read seen (text ++ ['\n'])).error? = none) :
    bodyFrom quote width read seen text = bodyFrom quote width read seen (text ++ ['\n']) := by
  induction read, seen, text using bodyFrom.induct quote width with
  | case1 read seen => exact absurd h (bodyFrom_newline hquote read seen)
  | case2 read seen rest hseen =>
    rw [List.cons_append, bodyFrom_closing hseen, bodyFrom_closing hseen]
  | case3 read seen rest hseen ih =>
    rw [List.cons_append, bodyFrom_quote hseen] at h
    rw [List.cons_append, bodyFrom_quote hseen, bodyFrom_quote hseen, ih h]
  | case4 read seen hescape =>
    rw [List.cons_append, List.nil_append, bodyFrom_escaped hescape _ _ (by simp)] at h
    exact absurd h (bodyFrom_nil _ _)
  | case5 read seen rest hescape ih =>
    rw [List.cons_append, List.cons_append, List.cons_append, bodyFrom_joined hescape] at h
    rw [List.cons_append, List.cons_append, List.cons_append, bodyFrom_joined hescape,
      bodyFrom_joined hescape, ih h]
  | case6 read seen d rest hd hescape ih =>
    by_cases hlast : d = '\r' ∧ rest = []
    · -- the line feed would be joined to the carriage return before it
      obtain ⟨rfl, rfl⟩ := hlast
      rw [List.cons_append, List.cons_append, List.nil_append, bodyFrom_joined hescape] at h
      exact absurd h (bodyFrom_nil _ _)
    · have hd' : ∀ rest', d = '\r' → rest ++ ['\n'] = '\n' :: rest' → False := by
        intro rest' hreturn heq
        cases rest with
        | nil => exact hlast ⟨hreturn, rfl⟩
        | cons c rest => exact hd rest hreturn (by rw [(List.cons.inj heq).1])
      rw [List.cons_append, List.cons_append, bodyFrom_escaped hescape _ _ hd'] at h
      rw [List.cons_append, List.cons_append, bodyFrom_escaped hescape _ _ hd',
        bodyFrom_escaped hescape _ _ hd, ih h]
  | case7 read seen c rest hne hescape hbreak =>
    rw [List.cons_append, bodyFrom_broken hne hescape hbreak, bodyFrom_broken hne hescape hbreak]
  | case8 read seen c rest hne hescape hbreak ih =>
    rw [List.cons_append, bodyFrom_plain hne hescape hbreak] at h
    rw [List.cons_append, bodyFrom_plain hne hescape hbreak, bodyFrom_plain hne hescape hbreak,
      ih h]

theorem stretch?_eq_none_concat {text : List Char} (h : stretch? (text ++ ['\n']) = none) :
    stretch? text = none := by
  unfold stretch? at *
  rw [opening?_before (by decide)] at h
  cases ho : opening? text with
  | none => rfl
  | some o =>
    rw [ho] at h
    cases h

/-- A literal that ends before a final line feed is there without it. -/
theorem stretch?_concat {text : List Char} {x : Stretch} (h : stretch? (text ++ ['\n']) = some x)
    (hx : x.error? = none) : stretch? text = some x := by
  unfold stretch? at *
  rw [opening?_before (by decide)] at h
  cases ho : opening? text with
  | none =>
    rw [ho] at h
    cases h
  | some o =>
    rw [ho, Option.map_some, Option.map_some] at h
    obtain rfl := Option.some.inj h
    exact congrArg some (bodyFrom_concat (opening?_quote ho) _ _ _ hx)

end Offside.Literal
