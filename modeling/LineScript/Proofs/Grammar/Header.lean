import LineScript.Proofs.Grammar.Whole
import LineScript.Proofs.Token.Words

/-!
# Headers of constructs

The headers of the four constructs that have a body, with names for everything that a header leaves
open: their text, their tokens, and what is read behind them.
-/

namespace LineScript

open Scan

/-- The header of a construct that has a body. -/
inductive Header where
  | conditional (condition : String)
  | whileLoop (condition : String)
  | forLoop (target iterator : String)
  | function (name : String)
deriving DecidableEq

namespace Header

/-- How a header is written. -/
def text : Header → String
  | conditional c => "if " ++ c ++ " then"
  | whileLoop c => "while " ++ c
  | forLoop v c => "for " ++ v ++ " in " ++ c
  | function f => "function " ++ f ++ "()"

/-- The word that closes a body on lines of its own. -/
def closing : Header → Keyword
  | conditional _ => .endIf
  | whileLoop _ => .endWhile
  | forLoop _ _ => .endFor
  | function _ => .endFunction

/-- The names in a header. -/
def names : Header → List String
  | conditional c => [c]
  | whileLoop c => [c]
  | forLoop v c => [v, c]
  | function f => [f]

/-- The tokens of a header, without their places. -/
def tokens : Header → List (TokenKind × String)
  | conditional c => [(.keyword .ifWord, "if"), (.identifier, c), (.keyword .thenWord, "then")]
  | whileLoop c => [(.keyword .whileWord, "while"), (.identifier, c)]
  | forLoop v c => [(.keyword .forWord, "for"), (.identifier, v), (.keyword .inWord, "in"),
      (.identifier, c)]
  | function f => [(.keyword .functionWord, "function"), (.identifier, f),
      (.punctuator .parenOpen, "("), (.punctuator .parenClose, ")")]

/-- The statement that a header makes with a body: its kind, its names, and nothing else in it. -/
def Encloses (body : List Node) (n : Node) : Header → Prop
  | conditional c => ∃ e e₁ e₂, n = .conditional e [.mk e₁ .ifClause (some (.identifier e₂ c)) body]
  | whileLoop c => ∃ e e₁, n = .whileLoop e (.identifier e₁ c) body
  | forLoop v c => ∃ e e₁ e₂, n = .forLoop e (.identifier e₁ v) (.identifier e₂ c) body
  | function f => ∃ e, n = .function e (some f) [] body

open Cursor (Scans)

variable (tabWidth : Nat) {c : Cursor} {tail blanks : List Char}

theorem scans_word {s : String} (hs : isSingleWord s.toList = true)
    (hk : wordKind s s ≠ .endOfFile) (hc : c.rest = blanks ++ (s.toList ++ tail))
    (hblanks : ∀ y ∈ blanks, isBlank y = true) (ht : EndsWord tail) :
    ∃ t d, Scans tabWidth c [t] d ∧ t.kind = wordKind s s ∧ t.value = s ∧ d.rest = tail ∧
      d.line = c.line := by
  obtain ⟨t, d, hscan, hkind, hrest⟩ := Cursor.scan_singleWord tabWidth hs hc
    hblanks ht
  exact ⟨t, d, .next hscan (by simp [Token.isEndOfFile, hkind, hk]) .done, hkind, hrest⟩

theorem scans_name {s : String} (hs : isName s = true)
    (hc : c.rest = blanks ++ (s.toList ++ tail)) (hblanks : ∀ y ∈ blanks, isBlank y = true)
    (ht : EndsWord tail) :
    ∃ t d, Scans tabWidth c [t] d ∧ t.kind = .identifier ∧ t.value = s ∧ d.rest = tail ∧
      d.line = c.line := by
  have hk := wordKind_of_isName hs
  have := scans_word tabWidth (isSingleWord_of_isName hs) (by simp [hk]) hc hblanks ht
  rwa [hk] at this

theorem scans_parenthesis {x : Char} {q : Punctuator}
    (hx : x = '(' ∧ q = .parenOpen ∨ x = ')' ∧ q = .parenClose) (hc : c.rest = x :: tail) :
    ∃ t d, Scans tabWidth c [t] d ∧ t.kind = .punctuator q ∧ t.value = q.text ∧ d.rest = tail ∧
      d.line = c.line := by
  have hq : c.rest = [] ++ (q.text.toList ++ tail) ∧
      Punctuator.ofChars? (q.text.toList ++ tail) = some q ∧ q ≠ .dot ∧ q ≠ .slash := by
    obtain ⟨rfl, rfl⟩ | ⟨rfl, rfl⟩ := hx <;> exact ⟨hc, rfl, by decide, by decide⟩
  obtain ⟨hrest, hchars, hdot, hslash⟩ := hq
  obtain ⟨t, d, hscan, hkind, hvalue, -, hd⟩ := Cursor.scan_punctuator tabWidth hrest (by simp)
    hchars hdot fun h => absurd h hslash
  exact ⟨t, d, .next hscan (by simp [Token.isEndOfFile, hkind]) .done, hkind, hvalue, hd⟩

theorem blank_singleton : ∀ y ∈ [' '], isBlank y = true := by simp [isBlank]

theorem endsWord_blank (cs : List Char) : EndsWord (' ' :: cs) := by
  intro x hx
  cases hx
  decide

/-- A header is scanned to its tokens, and the line goes on behind it. -/
theorem scans (h : Header) (hn : ∀ s ∈ h.names, isName s = true)
    (hc : c.rest = blanks ++ (h.text.toList ++ tail)) (hblanks : ∀ y ∈ blanks, isBlank y = true)
    (ht : EndsWord tail) :
    ∃ ts d, Scans tabWidth c ts d ∧ ts.map (fun t => (t.kind, t.value)) = h.tokens ∧
      d.rest = tail ∧ d.line = c.line := by
  cases h with
  | conditional s =>
    have hs : isName s = true := hn s (by simp [names])
    have hc : c.rest = blanks ++ ("if".toList ++ ([' '] ++ (s.toList ++ ([' '] ++
        ("then".toList ++ tail))))) := by
      rw [hc]
      simp [text]
    obtain ⟨t₁, c₁, h₁, k₁, v₁, r₁, l₁⟩ := scans_word tabWidth (by decide) (by decide) hc hblanks
      (endsWord_blank _)
    obtain ⟨t₂, c₂, h₂, k₂, v₂, r₂, l₂⟩ := scans_name tabWidth hs r₁ blank_singleton
      (endsWord_blank _)
    obtain ⟨t₃, c₃, h₃, k₃, v₃, r₃, l₃⟩ := scans_word tabWidth (s := "then")
      (by decide) (by decide) r₂ blank_singleton ht
    refine ⟨_, c₃, h₁.append (h₂.append h₃), ?_, r₃, by rw [l₃, l₂, l₁]⟩
    simp only [List.cons_append, List.nil_append, List.map_cons, List.map_nil, k₁, k₂, k₃, v₁, v₂,
      v₃, tokens]
    rfl
  | whileLoop s =>
    have hs : isName s = true := hn s (by simp [names])
    have hc : c.rest = blanks ++ ("while".toList ++ ([' '] ++ (s.toList ++ tail))) := by
      rw [hc]
      simp [text]
    obtain ⟨t₁, c₁, h₁, k₁, v₁, r₁, l₁⟩ := scans_word tabWidth (by decide) (by decide) hc hblanks
      (endsWord_blank _)
    obtain ⟨t₂, c₂, h₂, k₂, v₂, r₂, l₂⟩ := scans_name tabWidth hs r₁ blank_singleton ht
    refine ⟨_, c₂, h₁.append h₂, ?_, r₂, by rw [l₂, l₁]⟩
    simp only [List.cons_append, List.nil_append, List.map_cons, List.map_nil, k₁, k₂, v₁, v₂,
      tokens]
    rfl
  | forLoop v s =>
    have hv : isName v = true := hn v (by simp [names])
    have hs : isName s = true := hn s (by simp [names])
    have hc : c.rest = blanks ++ ("for".toList ++ ([' '] ++ (v.toList ++ ([' '] ++
        ("in".toList ++ ([' '] ++ (s.toList ++ tail))))))) := by
      rw [hc]
      simp [text]
    obtain ⟨t₁, c₁, h₁, k₁, v₁, r₁, l₁⟩ := scans_word tabWidth (by decide) (by decide) hc hblanks
      (endsWord_blank _)
    obtain ⟨t₂, c₂, h₂, k₂, v₂, r₂, l₂⟩ := scans_name tabWidth hv r₁ blank_singleton
      (endsWord_blank _)
    obtain ⟨t₃, c₃, h₃, k₃, v₃, r₃, l₃⟩ := scans_word tabWidth (s := "in")
      (by decide) (by decide) r₂ blank_singleton (endsWord_blank _)
    obtain ⟨t₄, c₄, h₄, k₄, v₄, r₄, l₄⟩ := scans_name tabWidth hs r₃ blank_singleton ht
    refine ⟨_, c₄, h₁.append (h₂.append (h₃.append h₄)), ?_, r₄, by rw [l₄, l₃, l₂, l₁]⟩
    simp only [List.cons_append, List.nil_append, List.map_cons, List.map_nil, k₁, k₂, k₃, k₄, v₁,
      v₂, v₃, v₄, tokens]
    rfl
  | function f =>
    have hf : isName f = true := hn f (by simp [names])
    have hc : c.rest = blanks ++ ("function".toList ++ ([' '] ++ (f.toList ++
        '(' :: ')' :: tail))) := by
      rw [hc]
      simp [text]
    obtain ⟨t₁, c₁, h₁, k₁, v₁, r₁, l₁⟩ := scans_word tabWidth (by decide) (by decide) hc hblanks
      (endsWord_blank _)
    obtain ⟨t₂, c₂, h₂, k₂, v₂, r₂, l₂⟩ := scans_name tabWidth hf r₁ blank_singleton
      (by rintro _ ⟨⟩; decide)
    obtain ⟨t₃, c₃, h₃, k₃, v₃, r₃, l₃⟩ := scans_parenthesis tabWidth
      (.inl ⟨rfl, rfl⟩) r₂
    obtain ⟨t₄, c₄, h₄, k₄, v₄, r₄, l₄⟩ := scans_parenthesis tabWidth
      (.inr ⟨rfl, rfl⟩) r₃
    refine ⟨_, c₄, h₁.append (h₂.append (h₃.append h₄)), ?_, r₄, by rw [l₄, l₃, l₂, l₁]⟩
    simp only [List.cons_append, List.nil_append, List.map_cons, List.map_nil, k₁, k₂, k₃, k₄, v₁,
      v₂, v₃, v₄, tokens]
    rfl

end Header

end LineScript
