import SlrCompiler.Text.Cutting

/-! # Quoted text

    A quoted text ends at the next quote of its own kind. A backslash takes the
    character after it along, whatever it is, so an escaped quote does not end the text.
-/

namespace SlrCompiler.Text

/-- The rest of a quoted text after its opening quote, the closing quote included, and the text
    after it. -/
def closeQuote (quote : Char) : List Char → Option (List Char × List Char)
  | [] => none
  | ['\\'] => none
  | '\\' :: c :: rest =>
    (closeQuote quote rest).map fun (quoted, after) => ('\\' :: c :: quoted, after)
  | c :: rest =>
    if c = quote then some ([c], rest)
    else (closeQuote quote rest).map fun (quoted, after) => (c :: quoted, after)

/-- Closing a quoted text loses nothing. -/
theorem eq_of_closeQuote {quote : Char} {text quoted after : List Char}
    (h : closeQuote quote text = some (quoted, after)) : text = quoted ++ after := by
  fun_induction closeQuote quote text generalizing quoted after with
  | case1 => simp at h
  | case2 => simp at h
  | case3 c rest ih =>
    obtain ⟨⟨q, a⟩, hq, he⟩ := Option.map_eq_some_iff.1 h
    simp only [Prod.mk.injEq] at he
    obtain ⟨rfl, rfl⟩ := he
    simp [ih hq]
  | case4 rest =>
    simp only [Option.some.injEq, Prod.mk.injEq] at h
    obtain ⟨rfl, rfl⟩ := h
    rfl
  | case5 c rest _ _ _ ih =>
    obtain ⟨⟨q, a⟩, hq, he⟩ := Option.map_eq_some_iff.1 h
    simp only [Prod.mk.injEq] at he
    obtain ⟨rfl, rfl⟩ := he
    simp [ih hq]

theorem suffix_of_closeQuote {quote : Char} {text quoted after : List Char}
    (h : closeQuote quote text = some (quoted, after)) : after <:+ text :=
  ⟨quoted, (eq_of_closeQuote h).symm⟩

end SlrCompiler.Text
