import LineScript.Proofs.Grammar.Construct
import LineScript.Proofs.Grammar.Ending
import LineScript.Proofs.Grammar.Placing

/-!
# Programs as bodies

A header, the lines of a program and a closing word are read as a construct whose body is the
program, unless a statement of the program takes the closing word for its own. Main statement: the
construct is read if and only if the program in front of the closing word alone is reported to leave
that word over.
-/

namespace LineScript

namespace Reader

/-- The second reading has the tokens of the first up to the last, which an error stands for. The
limit of what both have in common is the last of those tokens. -/
structure Cut (r r' : Reader) : Prop where
  strict : r.lenient = false
  strict' : r'.lenient = false
  stop : r'.stop ≠ none
  current : r'.current = r.current
  previous : r'.previous = r.previous
  rest : ∃ last, r.rest = r'.rest ++ [last]
  point : r'.rest = [] → r.current.isPunctuator .dot = false
  points : ∀ t, r'.rest.getLast? = some t → t.isPunctuator .dot = false

variable {r r' s : Reader}

theorem Cut.step (h : Cut r r') (hs : r.step = .ok s) (hne : s.rest ≠ []) :
    ∃ s', r'.step = .ok s' ∧ Cut s s' := by
  obtain ⟨h₁, h₂, h₃, h₄, h₅, ⟨last, h₆⟩, h₇, h₈⟩ := h
  cases hr : r'.rest with
  | nil =>
    simp only [hr, List.nil_append] at h₆
    simp only [Reader.step, h₆] at hs
    cases hs
    exact absurd rfl hne
  | cons t rest =>
    simp only [hr, List.cons_append] at h₆
    simp only [Reader.step, h₆] at hs
    cases hs
    refine ⟨{ r' with previous := r'.current, current := t, rest := rest },
      by simp only [Reader.step, hr], h₁, h₂, h₃, rfl, h₄, ⟨last, rfl⟩, ?_, ?_⟩
    · rintro rfl
      exact h₈ t (by simp [hr])
    · intro u hu
      refine h₈ u ?_
      rw [hr, List.getLast?_cons]
      simp only at hu
      rw [hu]
      rfl

theorem Cut.note (h : Cut r r') (name : String) : Cut (r.note name) (r'.note name) := by
  obtain ⟨h₁, h₂, h₃, h₄, h₅, h₆, h₇, h₈⟩ := h
  unfold Reader.note
  split <;> split <;> exact ⟨h₁, h₂, h₃, h₄, h₅, h₆, h₇, h₈⟩

end Reader

namespace Reading

open Reader (Cut Faces)

theorem numberBehindPoint_cut {r r' : Reader} {b : Bool} (h : Cut r r')
    (hb : numberBehindPoint r = .ok b r) : numberBehindPoint r' = .ok b r' := by
  obtain ⟨h₁, h₂, h₃, h₄, h₅, ⟨last, h₆⟩, h₇, h₈⟩ := h
  unfold numberBehindPoint at hb ⊢
  rw [h₄]
  split at hb
  next hdot =>
    rw [if_pos hdot]
    cases hr : r'.rest with
    | nil => exact absurd hdot (by simp [h₇ hr])
    | cons t rest =>
      simp only [hr, List.cons_append] at h₆
      obtain ⟨k, u, hp, hk⟩ := bind_eq_ok.1 hb
      cases hk
      simp only [peek, h₆] at hp
      cases hp
      refine bind_eq_ok.2 ⟨t.kind, r', ?_, rfl⟩
      simp only [peek, hr]
  next hdot =>
    rw [if_neg hdot]
    cases hb
    rfl

/-- What is read in front of the last token is read without it. -/
theorem forward_cut : Forward .same (fun s => s.rest ≠ []) Cut where
  strict h := h.strict
  limit h hs hr := hs (List.eq_nil_of_length_eq_zero (by simpa [hr] using h.length_le))
  current h := h.current
  previous h := h.previous
  step h hs hne := h.step hs hne
  point h _ hb := numberBehindPoint_cut h hb
  note name h := h.note name

theorem getLast?_of_leads {r s : Reader} (h : r.Leads s) :
    (s.current :: s.rest).getLast? = (r.current :: r.rest).getLast? := by
  obtain ⟨before, hbefore⟩ := h.tokens
  rw [← hbefore, List.getLast?_append_of_ne_nil _ (by simp)]

theorem block_leads {n : Nat} {r s : Reader} {a : List Node} (h : block n r = .ok a s) :
    r.Leads s :=
  ((built n).block.leads (fun _ => rfl) h).2

section

variable {E : Ending} {t e : Token} {ts : List Token} {n m : Nat} {S S' : List Node} {s s' : Reader}

/-- A program that is read up to the end of the source is read in the same way in front of a closing
word, if that word is left over. -/
theorem block_left_over (hts : ∀ u ∈ t :: ts, u.isEndOfFile = false)
    (hline : ∃ u, (t :: ts).getLast? = some u ∧ u.isEndOfLine = true)
    (he : e.isEndOfFile = true) (h : block n (.ofFirst t (ts ++ [E.last])) = .ok S s)
    (hs : s.current.isEndOfFile = true)
    (h' : block m (.ofFirst t (ts ++ [E.word, e])) = .ok S' s')
    (hs' : s'.current.isEndOfFile = false) :
    S' = S ∧ s'.current = E.word ∧ s'.rest = [e] := by
  let r' : Reader := ⟨false, t, Reader.placeholder, ts ++ [E.word], some default, [], []⟩
  have hcut : Cut (.ofFirst t (ts ++ [E.word, e])) r' := by
    refine ⟨rfl, rfl, by simp [r'], rfl, rfl, ⟨e, by simp [r', Reader.ofFirst]⟩, by simp [r'], ?_⟩
    intro u hu
    have : E.word = u := by simpa [r'] using hu
    rw [← this]
    exact E.word_isPunctuator .dot
  have hlast : (s'.current :: s'.rest).getLast? = some e := by
    rw [getLast?_of_leads (block_leads h')]
    simp [Reader.ofFirst, List.getLast?_cons]
  have hne : s'.rest ≠ [] := by
    intro hnil
    have : s'.current = e := by simpa [hnil] using hlast
    rw [this, he] at hs'
    cases hs'
  obtain ⟨S'', u, hu, hS, hcut'⟩ := (built m).block.forward forward_cut hcut h' hne
  obtain rfl := hS.eq
  have htwin : E.Twin (.ofFirst t (ts ++ [E.last])) r' :=
    ⟨rfl, rfl, rfl, by simp [r'], rfl, rfl, ts, rfl, rfl, hline⟩
  obtain ⟨rfl, hend⟩ := (agreed E (max n m)).block (.inl htwin)
    (block_mono (Nat.le_max_left n m) h) (block_mono (Nat.le_max_right n m) hu)
  obtain htwin | hmet := hend
  · -- The first reading is at the end of the source, which no token of the program is.
    obtain ⟨us, hus, _⟩ := htwin.ahead
    obtain ⟨before, hbefore⟩ := (block_leads h).tokens
    have hmem : s.current ∈ t :: ts := by
      have : before ++ s.current :: us = t :: ts := by
        have : (before ++ s.current :: us) ++ [E.last] = (t :: ts) ++ [E.last] := by
          simpa [hus, Reader.ofFirst] using hbefore
        exact List.append_cancel_right this
      rw [← this]
      simp
    rw [hts _ hmem] at hs
    cases hs
  · obtain ⟨last, hrest⟩ := hcut'.rest
    rw [hmet.rest', List.nil_append] at hrest
    refine ⟨rfl, hcut'.current.symm.trans hmet.current', ?_⟩
    rw [hrest] at hlast ⊢
    simpa using hlast

end

section

variable {h : Header} {t₀ b t : Token} {hs ts : List Token} {p : Placement} {S : List Node}

theorem isApart_of_isEndOfLine (hb : b.isEndOfLine = true) : b.IsApart := by
  have hk : b.kind = .endOfLine := by simpa [Token.isEndOfLine] using hb
  exact ⟨by simp [BinaryOperator.ofToken?, hk], by simp [hk]⟩

/-- The reader behind a header and the end of its line. -/
theorem faces_behind (p : Placement) (t previous : Token) (ts : List Token) (names : List String) :
    Faces p (.ofFirst t ts)
      ⟨false, t.relocate p, previous, ts.map (Token.relocate p), none, [], names⟩ :=
  ⟨rfl, rfl, rfl, rfl, rfl, rfl⟩

/-- The body of a construct on lines of its own is what its lines are read to, up to the closing
word. -/
theorem block_of_construct (hmap : (t₀ :: hs).map (fun t => (t.kind, t.value)) = h.tokens)
    (hb : b.isEndOfLine = true) {n : Nat} {s : Reader} {node : Node}
    (hok : block n (.ofFirst t₀ (hs ++ b :: (t :: ts).map (Token.relocate p))) = .ok [node] s)
    {body : List Node} (hbody : h.Encloses body node) :
    ∃ m S s', block m (.ofFirst t ts) = .ok S s' ∧ body = S.map (Node.relocate p.place) ∧
      s'.current.isKeyword h.closing = true := by
  have hok := block_mono (Nat.le_add_right n 10) hok
  obtain ⟨places, previous, names, hstatement⟩ := h.statement_header hmap
    (isApart_of_isEndOfLine hb) (r := .ofFirst t₀ (hs ++ b :: (t :: ts).map (Token.relocate p))) rfl
  rw [block, current_bind, show (Reader.ofFirst t₀ _).current.endsBlock = false from
    h.not_endsBlock hmap] at hok
  obtain ⟨o, s₁, ho, hok₁⟩ := bind_eq_ok.1 hok
  rw [hstatement, map_eq_pure_bind] at ho
  obtain ⟨node', s₂, hnode, ho⟩ := bind_eq_ok.1 ho
  cases ho
  obtain ⟨_, s₃, _, hok₂⟩ := bind_eq_ok.1 hok₁
  rw [map_eq_pure_bind] at hok₂
  obtain ⟨more, s₄, _, hok₃⟩ := bind_eq_ok.1 hok₂
  cases hok₃
  obtain ⟨m, r', hblock, hk, hstep⟩ := h.remainder_block rfl hb hnode hbody
  obtain ⟨m, hm⟩ := (block_emptyLine hb rfl).1 ⟨m, hblock⟩
  have hmatch := block_faces m (faces_behind p t b ts names)
  rw [show block m ⟨false, _, b, _, none, [], names⟩ = _ from hm] at hmatch
  obtain ⟨S, s', hS, ⟨hbody', _⟩, hfaces⟩ := hmatch.ok_right
  refine ⟨m, S, s', hS, hbody', ?_⟩
  rw [hfaces.current, Token.isKeyword_relocate] at hk
  exact hk

/-- Lines that are read up to the closing word make the body of a construct. -/
theorem construct_of_block (hmap : (t₀ :: hs).map (fun t => (t.kind, t.value)) = h.tokens)
    (hb : b.isEndOfLine = true) {m : Nat} {s' : Reader} {e : Token}
    (hok : block m (.ofFirst t ts) = .ok S s') (hk : s'.current.isKeyword h.closing = true)
    (hrest : s'.rest = [e]) (he : e.isEndOfFile = true) :
    ∃ n s node, block n (.ofFirst t₀ (hs ++ b :: (t :: ts).map (Token.relocate p))) =
      .ok [node] s ∧ s.current.isEndOfFile = true ∧
        h.Encloses (S.map (Node.relocate p.place)) node := by
  obtain ⟨places, previous, names, hstatement⟩ := h.statement_header hmap
    (isApart_of_isEndOfLine hb) (r := .ofFirst t₀ (hs ++ b :: (t :: ts).map (Token.relocate p))) rfl
  have hmatch := block_faces m (faces_behind p t b ts names)
  rw [hok] at hmatch
  obtain ⟨body, r', hr', ⟨rfl, _⟩, hfaces⟩ := hmatch.ok
  obtain ⟨n, hn⟩ := (block_emptyLine (r := ⟨false, b, previous, (t :: ts).map (Token.relocate p),
    none, [], names⟩) hb rfl).2 ⟨m, hr'⟩
  have hk' : r'.current.isKeyword h.closing = true := by
    rw [hfaces.current, Token.isKeyword_relocate]
    exact hk
  have hrest' : r'.rest = [e.relocate p] := by rw [hfaces.rest, hrest]; rfl
  obtain ⟨s, hstep, hs⟩ : ∃ s, r'.step = .ok s ∧ s.current.isEndOfFile = true := by
    refine ⟨{ r' with previous := r'.current, current := e.relocate p, rest := [] }, ?_, he⟩
    simp only [Reader.step, hrest']
  obtain ⟨node, hnode, hencloses⟩ := h.remainder_of_block places t₀.start rfl hb
     (block_mono (Nat.le_add_right n 6) hn) hk' hstep
  refine ⟨n + 10, s, node, block_last (h.not_endsBlock hmap) ?_ hs, hs, hencloses⟩
  rw [hstatement, map_eq_pure_bind]
  exact bind_eq_ok.2 ⟨node, s, hnode, rfl⟩

/-- A program is the body of a construct if and only if the closing word behind the program is left
over. -/
theorem construct_iff_left_over {E : Ending} {e : Token} {n : Nat} {s : Reader}
    (hmap : (t₀ :: hs).map (fun t => (t.kind, t.value)) = h.tokens) (hb : b.isEndOfLine = true)
    (hts : ∀ u ∈ t :: ts, u.isEndOfFile = false)
    (hline : ∃ u, (t :: ts).getLast? = some u ∧ u.isEndOfLine = true)
    (hword : E.keyword = h.closing) (he : e.isEndOfFile = true)
    (hok : block n (.ofFirst t (ts ++ [E.last])) = .ok S s) (hs' : s.current.isEndOfFile = true) :
    (∃ n s node, block n (.ofFirst t₀ (hs ++ b ::
        (t :: ts ++ [E.word, e]).map (Token.relocate p))) = .ok [node] s ∧
      s.current.isEndOfFile = true ∧ h.Encloses (S.map (Node.relocate p.place)) node) ↔
    ∃ n S' s, block n (.ofFirst t (ts ++ [E.word, e])) = .ok S' s ∧
      s.current.isEndOfFile = false ∧ s.current.value = E.word.value := by
  constructor
  · rintro ⟨n', s', node, hn', -, hnode⟩
    obtain ⟨m, S', u, hm, -, hk⟩ := block_of_construct hmap hb hn' hnode
    have hu : u.current.isEndOfFile = false := by
      have hk : u.current.kind = .keyword h.closing := by simpa [Token.isKeyword] using hk
      simp [Token.isEndOfFile, hk]
    obtain ⟨-, hcurrent, -⟩ := block_left_over hts hline he hok hs' hm hu
    exact ⟨m, S', u, hm, hu, by rw [hcurrent]⟩
  · rintro ⟨m, S', u, hm, hu, -⟩
    obtain ⟨rfl, hcurrent, hrest⟩ := block_left_over hts hline he hok hs' hm hu
    refine construct_of_block hmap hb hm ?_ hrest he
    rw [hcurrent, Token.isKeyword, E.word_kind, hword]
    simp

end

end Reading

open Reading
open Cursor (Scans)

theorem Header.closing_closes (h : Header) :
    h.closing = .endIf ∨ h.closing = .endFor ∨ h.closing = .endWhile ∨
      h.closing = .endFunction := by
  cases h <;> simp [closing]

theorem Header.closing_head (h : Header) : h.closing.text.toList.head? ≠ some '\r' := by
  obtain h | h | h | h := h.closing_closes <;> rw [h] <;> decide

theorem Header.exists_tokens (h : Header) {ts : List Token}
    (hts : ts.map (fun t => (t.kind, t.value)) = h.tokens) : ∃ t us, ts = t :: us := by
  cases ts with
  | nil => cases h <;> cases hts
  | cons t us => exact ⟨t, us, rfl⟩

section

variable {tabWidth : Nat} {text : String} {ts : List Token} {d d' : Cursor} {e : Token}

/-- The tokens of a program in front of a closing word. -/
theorem scans_closing (h : Header) (hts : Scans tabWidth (.ofSource (text ++ "\n")) ts d)
    (hd : d.scan tabWidth = (.ok e, d')) (he : e.isEndOfFile = true) :
    ∃ word d₁ e₁ d₂, Scans tabWidth (.ofSource (text ++ "\n" ++ h.closing.text)) (ts ++ [word]) d₁ ∧
      d₁.scan tabWidth = (.ok e₁, d₂) ∧ e₁.isEndOfFile = true ∧
      word.kind = .keyword h.closing ∧ word.value = h.closing.text ∧
      ∃ u, ts.getLast? = some u ∧ u.isEndOfLine = true := by
  have hline : (Cursor.ofSource (text ++ "\n")).EndsLine := ⟨text.toList, by simp [Cursor.ofSource]⟩
  obtain ⟨hnil, hscans, hlast⟩ := hts.extend h.closing_head hline hd he
  obtain ⟨word, d₁, hword, hkind, hvalue, hrest⟩ := Cursor.scan_closing tabWidth
    (c := d.extend h.closing.text.toList) h.closing_closes (by simp [Cursor.extend, hnil])
  obtain ⟨e₁, d₂, hend, he₁⟩ := Cursor.scan_end (c := d₁) tabWidth (by simp [hrest])
  have hsource : (Cursor.ofSource (text ++ "\n")).extend h.closing.text.toList =
      .ofSource (text ++ "\n" ++ h.closing.text) := by
    simp [Cursor.extend, Cursor.ofSource]
  rw [hsource] at hscans
  refine ⟨word, d₁, e₁, d₂, hscans.append (.next hword ?_ .done), hend, ?_, hkind, hvalue, hlast⟩
  · simp [Token.isEndOfFile, hkind]
  · simp [Token.isEndOfFile, he₁]

/-- The tokens of a header and lines behind it. -/
theorem scans_behind_header (h : Header) (hn : ∀ s ∈ h.names, Scan.isName s = true)
    (htext : text.toList.head? ≠ some '\r') (hts : Scans tabWidth (.ofSource text) ts d)
    (hd : d.scan tabWidth = (.ok e, d')) :
    ∃ hs b offset c, Scans tabWidth (.ofSource (h.text ++ "\n" ++ text))
        (hs ++ b :: ts.map (Token.relocate (.shift 1 offset 0))) c ∧
      c.scan tabWidth = (.ok (e.relocate (.shift 1 offset 0)), d'.shift 1 offset 0) ∧
      hs.map (fun t => (t.kind, t.value)) = h.tokens ∧ b.isEndOfLine = true := by
  have hsource : (Cursor.ofSource (h.text ++ "\n" ++ text)).rest =
      [] ++ (h.text.toList ++ '\n' :: text.toList) := by simp [Cursor.ofSource]
  obtain ⟨hs, c, hscans, hmap, hrest, hline⟩ := h.scans tabWidth hn hsource (by simp)
    (by rintro _ ⟨⟩; decide)
  obtain ⟨b, offset, hbreak, hb⟩ := Cursor.scan_lineBreak tabWidth hrest htext
  have hshift : (⟨text.toList, offset, c.line + 1, 1⟩ : Cursor) =
      (Cursor.ofSource text).shift 1 offset 0 := by
    simp [Cursor.shift, Cursor.ofSource, hline]
  rw [hshift] at hbreak
  obtain ⟨hts', hdline⟩ := hts.shift 1 offset 0 (Cursor.ofSource_onPage text)
  refine ⟨hs, b, offset, d.shift 1 offset 0, hscans.append (.next hbreak ?_ hts'),
    (Cursor.scan_shift 1 offset 0 hdline hd).1, hmap, ?_⟩
  · simp [Token.isEndOfFile, hb]
  · simp [Token.isEndOfLine, hb]

end

/-- A program that is accepted is the body of the construct that a header, the program and the
closing word make, with all its lines one further down, if and only if no statement of the program
takes the closing word: behind the program alone, that word is reported to close no block. -/
theorem parse_construct_iff (h : Header) (hn : ∀ s ∈ h.names, Scan.isName s = true)
    (tabWidth : Nat) (text : String) (htext : text.toList.head? ≠ some '\r') (out : Parsed)
    (hok : parse ⟨false, tabWidth⟩ (text ++ "\n") = .ok out) :
    (∃ whole node, parse ⟨false, tabWidth⟩ (h.text ++ "\n" ++ text ++ "\n" ++ h.closing.text) =
        .ok whole ∧ whole.chunk.statements = [node] ∧
        h.Encloses (out.chunk.statements.map (Node.relocate (Position.down 1))) node) ↔
      ∃ position, parse ⟨false, tabWidth⟩ (text ++ "\n" ++ h.closing.text) =
        .error (.parse ⟨.unexpectedEndOfFile, h.closing.text, position⟩) := by
  obtain ⟨ts, d, e, d', hts, hd, he, hstream⟩ := parse_strict_scans hok
  obtain ⟨word, d₁, e₁, d₂, hts₁, hd₁, he₁, hkind, hvalue, hline⟩ := scans_closing h hts hd he
  have htext' : (text ++ "\n" ++ h.closing.text).toList.head? ≠ some '\r' := by
    cases hcs : text.toList with
    | nil => simp [hcs]
    | cons x cs => simpa [hcs] using htext
  obtain ⟨hs, b, offset, c, hscans, hc, hmap, hb⟩ := scans_behind_header h hn htext' hts₁ hd₁
  obtain ⟨t₀, hs, rfl⟩ := h.exists_tokens hmap
  obtain ⟨t, ts, rfl⟩ : ∃ t us, ts = t :: us := by
    obtain ⟨u, hu, -⟩ := hline
    exact List.exists_cons_of_ne_nil (by rintro rfl; simp at hu)
  have hstream₁ : TokenStream.ofSource ⟨false, tabWidth⟩ (text ++ "\n" ++ h.closing.text) =
      ⟨t :: (ts ++ [word, e₁]), none, []⟩ := by
    rw [TokenStream.ofSource_of_scans hts₁ hd₁ he₁]
    simp
  have hstream₂ : TokenStream.ofSource ⟨false, tabWidth⟩
      (h.text ++ "\n" ++ text ++ "\n" ++ h.closing.text) = ⟨t₀ :: (hs ++ b ::
        (t :: ts ++ [word, e₁]).map (Token.relocate (.shift 1 offset 0))), none, []⟩ := by
    have hassoc : h.text ++ "\n" ++ text ++ "\n" ++ h.closing.text =
        h.text ++ "\n" ++ (text ++ "\n" ++ h.closing.text) := by simp only [String.append_assoc]
    rw [hassoc, TokenStream.ofSource_of_scans hscans hc (by simpa using he₁)]
    simp
  obtain ⟨n, s, hblock, hs'⟩ := (parse_strict_ok hstream).1 ⟨out, hok, rfl⟩
  let E : Ending := ⟨e, word, h.closing, by simpa [Token.isEndOfFile] using he, hkind,
    h.closing_closes⟩
  have key :=
    construct_iff_left_over (E := E) (p := .shift 1 offset 0) hmap hb hts.not_end hline rfl
    he₁ hblock hs'
  rw [Placement.shift_place] at key
  constructor
  · rintro ⟨whole, node, hwhole, hnode, hencloses⟩
    obtain ⟨m, u, hm, hu⟩ := (parse_strict_ok hstream₂).1 ⟨whole, hwhole, hnode⟩
    obtain ⟨k, S, v, hk, hv, hvalue'⟩ := key.1 ⟨m, u, node, hm, hu, hencloses⟩
    exact ⟨v.current.start, (parse_strict_stray hstream₁).2
      ⟨k, S, v, hk, hv, hvalue'.trans hvalue, rfl⟩⟩
  · rintro ⟨position, hstray⟩
    obtain ⟨k, S, v, hk, hv, hvalue', -⟩ := (parse_strict_stray hstream₁).1 hstray
    obtain ⟨m, u, node, hm, hu, hencloses⟩ := key.2 ⟨k, S, v, hk, hv, hvalue'.trans hvalue.symm⟩
    obtain ⟨whole, hwhole, hnode⟩ := (parse_strict_ok hstream₂).2 ⟨m, u, hm, hu⟩
    exact ⟨whole, node, hwhole, hnode, hencloses⟩

/-- Whether a source text is rejected with a given error. -/
def rejectsWith (mode : ReadingMode) (source : String) (e : SourceError) : Bool :=
  match parse mode source with
  | .error e' => e' = e
  | .ok _ => false

theorem parse_of_rejectsWith {mode : ReadingMode} {source : String} {e : SourceError}
    (h : rejectsWith mode source e = true) : parse mode source = .error e := by
  unfold rejectsWith at h
  split at h
  next e' he =>
    rw [he, of_decide_eq_true h]
  · cases h

theorem parse_call_in_loop : ∃ out, parse ⟨false, 1⟩ ("f" ++ "\n") = .ok out ∧
    ∃ whole node, parse ⟨false, 1⟩ ("while c" ++ "\n" ++ "f" ++ "\n" ++ "end while") = .ok whole ∧
      whole.chunk.statements = [node] ∧
      (Header.whileLoop "c").Encloses (out.chunk.statements.map (Node.relocate (Position.down 1)))
        node :=
  ⟨_, rfl, (parse_construct_iff (.whileLoop "c") (by decide) 1 "f" (by decide) _ rfl).2
    ⟨⟨2, 1⟩, parse_of_rejectsWith (by decide +kernel)⟩⟩

/-- The closing word of a conditional is taken by a conditional on the line in front of it. -/
example : rejectsWith ⟨false, 1⟩ ("if c then" ++ "\n" ++ "if a then b" ++ "\n" ++ "end if")
    (.parse ⟨.unexpectedValue "end if", "<eof>", ⟨3, 7⟩⟩) = true := by decide +kernel

end LineScript
