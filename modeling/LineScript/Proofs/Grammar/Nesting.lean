import LineScript.Proofs.Grammar.LineBody
import LineScript.Proofs.Token.Breaks

/-!
# Constructs nested on one line

Headers on one line in front of a statement without a body nest around it. A conditional moves over
up to two line ends behind its line, so a construct around it goes on with the next line unless a
further line end is left. Main statement: the line is the nest and the source behind it is read
separately if and only if there are more line ends between them than the inner conditionals take.
-/

namespace LineScript

namespace Header

/-- The text of headers in front of a statement, all on one line. -/
def line (s : String) : List Header → String
  | [] => s
  | h :: hs => h.text ++ " " ++ line s hs

/-- The statement that headers make around a statement: each has the next as its only body, and the
places are left open. -/
def Nests (s : Node) : List Header → Node → Prop
  | [], n => n.erase = s.erase
  | h :: hs, n => ∃ inner, h.Encloses [inner] n ∧ Nests s hs inner

/-- How many line ends the constructs of headers move over behind their line. -/
def lineEndsTaken : List Header → Nat
  | [] => 0
  | h :: hs => h.lineEnds + lineEndsTaken hs

theorem lineEndsTaken_tail_le (hs : List Header) : lineEndsTaken hs.tail ≤ lineEndsTaken hs := by
  cases hs with
  | nil => exact Nat.le_refl _
  | cons h hs => exact Nat.le_add_left _ _

/-- Tokens write headers one after the other. -/
def Spells : List Header → List Token → Prop
  | [], ts => ts = []
  | h :: hs, ts => ∃ xs ys, ts = xs ++ ys ∧ xs.map (fun t => (t.kind, t.value)) = h.tokens ∧
      Spells hs ys

end Header

namespace Reading

open Reader (Ahead)
open Header (Spells Nests lineEndsTaken)

/-- A token that begins a line of headers or of a statement without a body. -/
structure Opens (t : Token) : Prop where
  apart : t.IsApart
  here : endsHere t = false
  block : t.endsBlock = false

theorem Opens.of_opensSimple {t : Token} (ht : t.opensSimple = true) : Opens t := by
  obtain hk | hk | hk | hk := opensSimple_cases ht <;>
  exact ⟨⟨by simp [BinaryOperator.ofToken?, hk], by simp [hk]⟩,
    by simp [endsHere, Token.isEndOfLine, Token.endsLineBody, hk],
    by simp [Token.endsBlock, hk, Keyword.closesBlock]⟩

/-- The first token of a header. -/
theorem Opens.of_header (h : Header) {t : Token} {ts : List Token}
    (ht : (t :: ts).map (fun t => (t.kind, t.value)) = h.tokens) :
    Opens t ∧ t.isKeyword .returnWord = false := by
  cases h <;>
  · simp only [Header.tokens, List.map_cons] at ht
    obtain ⟨ht, _⟩ := List.cons.inj ht
    obtain ⟨hk, _⟩ := Prod.mk.inj ht
    exact ⟨⟨⟨by simp [BinaryOperator.ofToken?, hk], by simp [hk]⟩,
      by simp [endsHere, Token.isEndOfLine, Token.endsLineBody, hk],
      by simp [Token.endsBlock, hk, Keyword.closesBlock]⟩, by simp [Token.isKeyword, hk]⟩

theorem not_endsLineBody_of_not_endsBlock {t : Token} (h : t.endsBlock = false) :
    t.endsLineBody = false := by
  unfold Token.endsLineBody
  unfold Token.endsBlock at h
  split <;> simp_all [Keyword.closesBlock]

section

variable {m : Nat} {node : Node} {w : Token} {ws es : List Token} {v : Token} {vs : List Token}

/-- Headers and a statement without a body begin with a token that begins a line. -/
theorem exists_opens {hs : List Header} {xs : List Token} (ws : List Token)
    (hw : w.opensSimple = true) (hxs : Spells hs xs) :
    ∃ u us, xs ++ (w :: ws) = u :: us ∧ Opens u := by
  cases hs with
  | nil =>
    obtain rfl : xs = [] := hxs
    exact ⟨w, ws, rfl, .of_opensSimple hw⟩
  | cons h hs =>
    obtain ⟨ys, zs, rfl, hys, _⟩ := hxs
    cases ys with
    | nil => cases h <;> cases hys
    | cons u ys => exact ⟨u, _, rfl, (Opens.of_header h hys).1⟩

/-- A statement without a body is read where it stands, up to the line ends behind it. -/
def ReadsLine (m : Nat) (node : Node) (ws behind : List Token) : Prop :=
  ∀ r : Reader, r.Ahead (ws ++ behind) →
    ∃ a s, statement m (r.current.isKeyword .returnWord) r = .ok (some a) s ∧
      a.erase = node.erase ∧ s.Ahead behind

/-- A header in front of what begins a line goes on with its body. -/
theorem statement_behind_header {h : Header} {xs us : List Token} {u : Token} (hu : Opens u)
    (hxs : xs.map (fun t => (t.kind, t.value)) = h.tokens) {r : Reader}
    (hr : r.Ahead (xs ++ u :: us)) :
    r.current.isKeyword .returnWord = false ∧ ∃ places t, t.Ahead (u :: us) ∧
      ∀ n inLine, statement (n + 9) inLine r =
        (some <$> h.remainder places r.current.start (n + 7)) t := by
  obtain ⟨places, previous, names, hstatement⟩ := h.statement_header hxs hu.apart hr.tokens
  refine ⟨?_, places, ⟨r.lenient, u, previous, us, r.stop, r.errors, names⟩,
    ⟨hr.strict, hr.stop, rfl⟩, hstatement⟩
  cases xs with
  | nil => cases h <;> cases hxs
  | cons x xs =>
    rw [hr.current]
    exact (Opens.of_header h hxs).2

/-- Headers on one line are read as the nest, if enough line ends are behind the line. -/
theorem statement_nests (hw : w.opensSimple = true)
    (hline : ReadsLine m node (w :: ws) (es ++ v :: vs)) (hes : ∀ t ∈ es, t.isEndOfLine = true)
    (hv : endsHere v = false) (hs : List Header) {xs : List Token} (hxs : Spells hs xs)
    (htaken : lineEndsTaken hs.tail < es.length) {r : Reader}
    (hr : r.Ahead (xs ++ (w :: ws) ++ (es ++ v :: vs))) :
    ∃ n a s, statement n (r.current.isKeyword .returnWord) r = .ok (some a) s ∧
      Nests node hs a ∧ s.Ahead (es.drop (lineEndsTaken hs) ++ v :: vs) := by
  induction hs generalizing xs r with
  | nil =>
    obtain rfl : xs = [] := hxs
    obtain ⟨a, s, ha, herase, hs⟩ := hline r hr
    exact ⟨m, a, s, ha, herase, hs⟩
  | cons h hs ih =>
    obtain ⟨ys, zs, rfl, hys, hzs⟩ := hxs
    obtain ⟨u, us, hus, hopens⟩ := exists_opens ws hw hzs
    have hahead : r.Ahead (ys ++ u :: (us ++ (es ++ v :: vs))) := by
      rwa [List.append_assoc ys, hus, List.append_assoc, List.cons_append] at hr
    obtain ⟨hreturn, places, t, ht, hstatement⟩ := statement_behind_header hopens hys hahead
    have ht' : t.Ahead (zs ++ (w :: ws) ++ (es ++ v :: vs)) := by
      rwa [hus, List.cons_append]
    have htail : lineEndsTaken hs.tail < es.length :=
      Nat.lt_of_le_of_lt (Header.lineEndsTaken_tail_le hs) htaken
    obtain ⟨n, a, s, ha, hnests, hs'⟩ := ih hzs htail ht'
    have hne : es.drop (lineEndsTaken hs) ≠ [] := by
      simpa [List.drop_eq_nil_iff] using htaken
    have heols : ∀ t ∈ es.drop (lineEndsTaken hs), t.isEndOfLine = true := fun t ht =>
      hes t (List.mem_of_mem_drop ht)
    have hhere : endsHere t.current = false := by
      rw [ht.current]
      exact hopens.here
    have hend : endsHere s.current = true := by
      obtain ⟨e, es', he⟩ := List.exists_cons_of_ne_nil hne
      rw [he] at hs' heols
      rw [hs'.current, endsHere, heols e List.mem_cons_self]
      rfl
    obtain ⟨b, s', hb, hencloses, hs''⟩ := h.remainder_of_line places r.current.start
      (not_eol_of_not_endsHere hhere) (lineBody_mono (Nat.le_add_right (n + 2) 4)
        (lineBody_single hhere ha hend)) hne heols hv hs'
    refine ⟨n + 9, b, s', ?_, ⟨a, hencloses, hnests⟩, ?_⟩
    · rw [hstatement, map_eq_pure_bind]
      exact bind_eq_ok.2 ⟨b, s', hb, rfl⟩
    · rwa [List.drop_drop, Nat.add_comm, ← lineEndsTaken] at hs''

/-- Where headers on one line are read as the nest, enough line ends are behind the line. -/
theorem lineEndsTaken_lt (hw : w.opensSimple = true)
    (hline : ReadsLine m node (w :: ws) (es ++ v :: vs)) (hes : ∀ t ∈ es, t.isEndOfLine = true)
    (hne : es ≠ []) (hv : endsHere v = false) (hs : List Header) {xs : List Token}
    (hxs : Spells hs xs) {r s : Reader} (hr : r.Ahead (xs ++ (w :: ws) ++ (es ++ v :: vs)))
    {n : Nat} {inLine : Bool} {a : Node} (ha : statement n inLine r = .ok (some a) s)
    (hnests : Nests node hs a) : lineEndsTaken hs.tail < es.length := by
  induction hs generalizing xs r s n inLine a with
  | nil => exact List.length_pos_of_ne_nil hne
  | cons h hs ih =>
    obtain ⟨ys, zs, rfl, hys, hzs⟩ := hxs
    obtain ⟨u, us, hus, hopens⟩ := exists_opens ws hw hzs
    have hahead : r.Ahead (ys ++ u :: (us ++ (es ++ v :: vs))) := by
      rwa [List.append_assoc ys, hus, List.append_assoc, List.cons_append] at hr
    obtain ⟨_, places, t, ht, hstatement⟩ := statement_behind_header hopens hys hahead
    have ht' : t.Ahead (zs ++ (w :: ws) ++ (es ++ v :: vs)) := by
      rwa [hus, List.cons_append]
    have hhere : endsHere t.current = false := by
      rw [ht.current]
      exact hopens.here
    have ha := statement_mono (Nat.le_add_right n 9) ha
    rw [hstatement, map_eq_pure_bind] at ha
    obtain ⟨b, s₁, hb, ha₁⟩ := bind_eq_ok.1 ha
    cases ha₁
    obtain ⟨inner, hencloses, hinner⟩ := hnests
    obtain ⟨k, t₁, hbody⟩ := h.lineBody_of_remainder (not_eol_of_not_endsHere hhere) hb hencloses
    obtain ⟨k', t₂, hstatement', hend⟩ := statement_of_lineBody hhere hbody
    -- The line ends that the inner construct leaves are known, and there has to be one.
    have htail := ih hzs ht' hstatement' hinner
    obtain ⟨k'', c, t₃, hc, _, ht₃⟩ := statement_nests hw hline hes hv hs hzs htail ht'
    obtain ⟨_, rfl⟩ := statement_unique hstatement' hc
    by_contra hlt
    rw [List.tail_cons, Nat.not_lt] at hlt
    rw [List.drop_eq_nil_of_le hlt] at ht₃
    rw [ht₃.current, hv] at hend
    cases hend

/-- A block goes on behind line ends. -/
theorem block_behind_lineEnds (r : Reader) (hes : ∀ t ∈ es, t.isEndOfLine = true)
    (hr : r.Ahead (es ++ v :: vs)) : ∃ r', r'.Ahead (v :: vs) ∧
      ∀ a s, (∃ n, block n r = .ok a s) ↔ ∃ n, block n r' = .ok a s := by
  induction es generalizing r with
  | nil => exact ⟨r, hr, fun _ _ => Iff.rfl⟩
  | cons e es ih =>
    obtain ⟨he, hes⟩ := List.forall_mem_cons.1 hes
    obtain ⟨s, hs, hahead⟩ : ∃ s, r.step = .ok s ∧ s.Ahead (es ++ v :: vs) := by
      cases es <;> exact Ahead.step hr
    obtain ⟨r', hr', hiff⟩ := ih s hes hahead
    refine ⟨r', hr', fun a t => ?_⟩
    rw [← hiff]
    exact block_emptyLine (by rw [hr.current, he]) hs

/-- Headers on one line and what is behind the line are read as two statements if and only if enough
line ends are between them. -/
theorem block_nests_iff (hw : w.opensSimple = true)
    (hline : ReadsLine m node (w :: ws) (es ++ v :: vs)) (hes : ∀ t ∈ es, t.isEndOfLine = true)
    (hne : es ≠ []) (hv : endsHere v = false) {hs : List Header} (hhs : hs ≠ []) {xs : List Token}
    (hxs : Spells hs xs) {d : Node}
    (hd : ∀ r : Reader, r.Ahead (v :: vs) → ∃ n a s, block n r = .ok [a] s ∧
      a.erase = d.erase ∧ s.current.isEndOfFile = true)
    {r : Reader} (hr : r.Ahead (xs ++ (w :: ws) ++ (es ++ v :: vs))) :
    (∃ n a b s, block n r = .ok [a, b] s ∧ s.current.isEndOfFile = true ∧ Nests node hs a ∧
      b.erase = d.erase) ↔ lineEndsTaken hs.tail < es.length := by
  obtain ⟨u, us, hus, hopens⟩ := exists_opens ws hw hxs
  have hcurrent : r.current = u := by
    rw [hus] at hr
    exact hr.current
  have hblock : ∀ n, block (n + 1) r = (do
      let s ← statement n false
      consumeLineEnd
      (s.toList ++ ·) <$> block n) r := by
    intro n
    rw [block, current_bind, hcurrent, hopens.block]
    rfl
  constructor
  · rintro ⟨n, a, b, s, hok, _, hnests, _⟩
    cases n with
    | zero => cases hok
    | succ n =>
      rw [hblock] at hok
      obtain ⟨o, t, ho, hok₁⟩ := bind_eq_ok.1 hok
      obtain ⟨_, t₁, _, hok₂⟩ := bind_eq_ok.1 hok₁
      rw [map_eq_pure_bind] at hok₂
      obtain ⟨more, t₂, _, hok₃⟩ := bind_eq_ok.1 hok₂
      obtain _ | a' := o
      · refine absurd ho (statement_finds n false ?_)
        rw [hcurrent]
        exact not_eol_of_not_endsHere hopens.here
      · cases hok₃
        exact lineEndsTaken_lt hw hline hes hne hv hs hxs hr ho hnests
  · intro htaken
    obtain ⟨n, a, t, ha, hnests, ht⟩ := statement_nests hw hline hes hv hs hxs htaken hr
    have hreturn : r.current.isKeyword .returnWord = false := by
      obtain ⟨h, hs, rfl⟩ := List.exists_cons_of_ne_nil hhs
      obtain ⟨ys, zs, rfl, hys, _⟩ := hxs
      cases ys with
      | nil => cases h <;> cases hys
      | cons y ys =>
        rw [show r.current = y from hr.current]
        exact (Opens.of_header h hys).2
    rw [hreturn] at ha
    have heols : ∀ e ∈ es.drop (lineEndsTaken hs), e.isEndOfLine = true := fun e he =>
      hes e (List.mem_of_mem_drop he)
    obtain ⟨t₁, ht₁, hahead⟩ := consumeLineEnd_ahead heols (not_eol_of_not_endsHere hv) ht
    obtain ⟨t₂, hahead₂, hiff⟩ := block_behind_lineEnds t₁
      (fun e he => heols e (List.mem_of_mem_drop he)) hahead
    obtain ⟨k, b, s, hb, herase, hend⟩ := hd t₂ hahead₂
    obtain ⟨k, hk⟩ := (hiff [b] s).2 ⟨k, hb⟩
    refine ⟨max n k + 1, a, b, s, ?_, hend, hnests, herase⟩
    rw [hblock]
    refine bind_eq_ok.2 ⟨some a, t, statement_mono (Nat.le_max_left n k) ha,
      bind_eq_ok.2 ⟨(), t₁, ht₁, ?_⟩⟩
    rw [map_eq_pure_bind]
    exact bind_eq_ok.2 ⟨[b], s, block_mono (Nat.le_max_right n k) hk, rfl⟩

end

end Reading

open Reading Scan
open Cursor (Scans)
open Header (Nests lineEndsTaken Spells)

/-- The text is a line that is a statement without a body, and holds no function. -/
structure SimpleLine (tabWidth : Nat) (s : String) (node : Node) : Prop where
  unbroken : ∀ x ∈ s.toList, isLineBreak x = false
  parsed : ∃ out, parse ⟨false, tabWidth⟩ (s ++ "\n") = .ok out ∧ out.chunk.statements = [node]
  tokens : ∃ w ws b e, (TokenStream.ofSource ⟨false, tabWidth⟩ (s ++ "\n")).tokens =
      w :: ws ++ [b, e] ∧ w.opensSimple = true ∧
    ∀ t ∈ w :: ws, t.isEndOfLine = false ∧ t.isKeyword .functionWord = false

/-- How many line ends a source text begins with. -/
def leadingLineEnds (tabWidth : Nat) (source : String) : Nat :=
  ((TokenStream.ofSource ⟨false, tabWidth⟩ source).tokens.takeWhile Token.isEndOfLine).length

section

variable {tabWidth : Nat} {s text : String} {node : Node} {c : Cursor}

/-- A simple line is scanned up to its line break, and read as a statement in front of it. -/
theorem SimpleLine.scans (h : SimpleLine tabWidth s node) :
    ∃ (w : Token) (ws : List Token) (L : LineEnd) (f d : Cursor),
      Scans tabWidth (.ofSource (s ++ "\n")) (w :: ws) f ∧ f.EndsLine ∧
      '\r' ∉ f.rest ∧ f.scan tabWidth = (.ok L.line, d) ∧ d.rest = [] ∧
      w.opensSimple = true ∧ (∀ t ∈ w :: ws, t.isEndOfLine = false) ∧
      ∃ n t, statement n (w.isKeyword .returnWord) (.ofFirst w (ws ++ [L.line, L.source])) =
        .ok (some node) t ∧ t.rest = [L.source] := by
  obtain ⟨out, hout, hbody⟩ := h.parsed
  obtain ⟨w, ws, b, e, htokens, hw, hall⟩ := h.tokens
  obtain ⟨ts, d, e', d', hts, hd, he, hstream⟩ := parse_strict_scans hout
  have heq : w :: ws ++ [b] ++ [e] = ts ++ [e'] := by
    rw [hstream] at htokens
    simpa using htokens.symm
  obtain ⟨rfl, hlast⟩ := List.append_inj' heq rfl
  obtain rfl : e = e' := by simpa using hlast
  have hline : (Cursor.ofSource (s ++ "\n")).EndsLine := ⟨s.toList, by simp [Cursor.ofSource]⟩
  obtain ⟨hnil, _, t, ht, heol⟩ := hts.extend (show [].head? ≠ some '\r' by simp) hline hd he
  obtain rfl : b = t := by
    rw [List.getLast?_append_of_ne_nil _ (by simp)] at ht
    simpa using ht
  obtain ⟨f, hws, hb⟩ := hts.split
  have hplain : ∀ t ∈ w :: ws, t.isEndOfLine = false := fun t ht => (hall t ht).1
  obtain ⟨_, hf⟩ := hws.extend_line [] hline hplain
  have hreturn : '\r' ∉ f.rest := by
    intro hmem
    have hmem := hws.suffix.subset hmem
    simp only [Cursor.ofSource, String.toList_append, List.mem_append] at hmem
    obtain hmem | hmem := hmem
    · exact absurd (h.unbroken _ hmem) (by decide)
    · exact absurd hmem (by decide)
  cases hb with
  | next hscan _ hdone =>
    cases hdone
    have hfirst : TokenStream.ofSource ⟨false, tabWidth⟩ (s ++ "\n") =
        ⟨w :: (ws ++ [b, e]), none, []⟩ := by
      rw [hstream]
      simp
    obtain ⟨n, u, hblock, hu⟩ := (parse_strict_ok hfirst).1 ⟨out, hout, hbody⟩
    let L : LineEnd := ⟨b, e, heol, he⟩
    have hinline : L.InLine (.ofFirst w (ws ++ [b, e])) := by
      refine ⟨rfl, w :: ws, rfl, fun t ht => ⟨?_, (hall t ht).2⟩⟩
      rw [Token.isTerminator, hplain t ht, hws.not_end t ht]
      rfl
    obtain ⟨m, v, hstatement, _, hv⟩ := statement_of_line hinline hw hblock hu
    exact ⟨w, ws, L, f, d, hws, hf, hreturn, hscan, hnil, hw, hplain, m, v, hstatement, hv⟩

/-- Headers on one line are scanned one after the other. -/
theorem Header.scans_line (tabWidth : Nat) (s : String) (hs : List Header) (h : Header)
    (hn : ∀ h' ∈ h :: hs, ∀ x ∈ h'.names, isName x = true) {blanks tail : List Char}
    (hblanks : ∀ y ∈ blanks, isBlank y = true)
    (hc : c.rest = blanks ++ ((line s (h :: hs)).toList ++ tail)) :
    ∃ xs d, Scans tabWidth c xs d ∧ Spells (h :: hs) xs ∧ d.rest = ' ' :: (s.toList ++ tail) := by
  induction hs generalizing h c blanks with
  | nil =>
    have hc : c.rest = blanks ++ (h.text.toList ++ ' ' :: (s.toList ++ tail)) := by
      simpa [line] using hc
    obtain ⟨xs, d, hxs, hmap, hd, _⟩ := h.scans tabWidth (hn h List.mem_cons_self) hc hblanks
      (endsWord_blank _)
    exact ⟨xs, d, hxs, ⟨xs, [], by simp, hmap, rfl⟩, hd⟩
  | cons h' hs ih =>
    have hc : c.rest =
        blanks ++ (h.text.toList ++ ' ' :: ((line s (h' :: hs)).toList ++ tail)) := by
      simpa [line] using hc
    obtain ⟨xs, d, hxs, hmap, hd, _⟩ := h.scans tabWidth (hn h List.mem_cons_self) hc hblanks
      (endsWord_blank _)
    obtain ⟨ys, d', hys, hspells, hd'⟩ := ih h' (fun h'' hh => hn h'' (List.mem_cons_of_mem _ hh))
      blank_singleton (show d.rest = [' '] ++ _ from hd)
    exact ⟨xs ++ ys, d', hxs.append hys, ⟨xs, ys, rfl, hmap, hspells⟩, hd'⟩

/-- Line breaks at the same line are the same without columns. -/
theorem lineBreak_flat {d : Cursor} {lines : Nat} (h : d.line = c.line + lines) :
    c.lineBreak.1.relocate (.flat lines) = d.lineBreak.1.relocate (.flat 0) := by
  simp [Cursor.lineBreak, Cursor.tokenTo, Cursor.position, Cursor.advance, Token.relocate,
    Placement.flat, Extent.relocate, h]

/-- A line that is scanned up to its line break is scanned in the same way elsewhere, in front of
the line break and other lines. -/
theorem scans_elsewhere {ws : List Token} {f d : Cursor} {b : Token}
    (hws : Scans tabWidth (.ofSource (s ++ "\n")) ws f)
    (hplain : ∀ t ∈ ws, t.isEndOfLine = false) (hreturn : '\r' ∉ f.rest)
    (hb : f.scan tabWidth = (.ok b, d)) (heol : b.isEndOfLine = true) (hd : d.rest = [])
    (hpage : c.OnPage) (hc : c.rest = s.toList ++ '\n' :: text.toList) :
    ∃ lines offset indent g, g.rest = '\n' :: text.toList ∧ 1 ≤ g.line ∧
      b.relocate (.flat lines) = g.lineBreak.1.relocate (.flat 0) ∧
      ∀ u us e, Scans tabWidth g (u :: us) e →
        Scans tabWidth c (ws.map (Token.relocate (.shift lines offset indent)) ++ u :: us) e := by
  have hline : (Cursor.ofSource (s ++ "\n")).EndsLine := ⟨s.toList, by simp [Cursor.ofSource]⟩
  obtain ⟨hext, hf⟩ := hws.extend_line text.toList hline hplain
  have hrest := Cursor.rest_of_last_break hf hreturn hb heol hd
  obtain ⟨hblanks, hf'⟩ := Cursor.skipBlanks_extend tabWidth text.toList hf
  obtain ⟨hcomment, _⟩ := Cursor.skipComment_extend text.toList hf'
  have hsource : (Cursor.ofSource (s ++ "\n")).extend text.toList =
      .ofSource (s ++ "\n" ++ text) := by
    simp [Cursor.extend, Cursor.ofSource]
  have hstart := Cursor.eq_shift_ofSource hpage
    (show c.rest = (s ++ "\n" ++ text).toList by simp [hc])
  rw [hsource] at hext
  obtain ⟨hshift, hfpage⟩ := hext.shift (c.line - 1) c.offset (c.column - 1)
    (Cursor.ofSource_onPage _)
  rw [← hstart] at hshift
  generalize he : (f.skipBlanks tabWidth).skipComment = e at hrest hcomment
  have hbreak : b = e.lineBreak.1 := by
    have hread : e.readToken = (.ok b, d) := he ▸ hb
    simp only [Cursor.readToken, hrest] at hread
    cases hread
    rfl
  let g := (e.extend text.toList).shift (c.line - 1) c.offset (c.column - 1)
  have hg : g.rest = '\n' :: text.toList := by simp [g, Cursor.shift, Cursor.extend, hrest]
  have hscan : ((f.extend text.toList).shift (c.line - 1) c.offset (c.column - 1)).scan tabWidth =
      g.scan tabWidth := by
    rw [Cursor.scan, Cursor.skipBlanks_shift, Cursor.skipComment_shift, hblanks, hcomment,
      Cursor.scan, Cursor.skip_break hg rfl]
  have hgline : g.line = e.line + (c.line - 1) := rfl
  refine ⟨c.line - 1, c.offset, c.column - 1, g, hg, ?_, ?_, ?_⟩
  · have hepage : (e.extend text.toList).OnPage := by
      rw [← hcomment, ← hblanks]
      exact (hfpage.skipBlanks tabWidth).skipComment
    exact Nat.le_add_right_of_le hepage.line
  · rw [hbreak]
    exact lineBreak_flat hgline
  · intro u us e' hus
    exact hshift.append (hus.of_scan_eq hscan)

/-- Behind the line ends in front of a source text is a first token, at the latest its end. -/
theorem exists_behind_lineEnds (us : List Token) {x : Token} (hx : x.isEndOfFile = true) :
    ∃ v vs, v.isEndOfLine = false ∧ us.dropWhile Token.isEndOfLine ++ [x] = v :: vs := by
  cases hdrop : us.dropWhile Token.isEndOfLine with
  | nil =>
    have hk : x.kind = .endOfFile := by simpa [Token.isEndOfFile] using hx
    exact ⟨x, [], by simp [Token.isEndOfLine, hk], rfl⟩
  | cons v vs =>
    refine ⟨v, vs ++ [x], ?_, rfl⟩
    have := List.head_dropWhile_not Token.isEndOfLine (l := us) (by simp [hdrop])
    simpa [hdrop] using this

/-- A block with a statement does not begin at its end. -/
theorem not_endsBlock_of_block {n : Nat} {r s : Reader} {a : Node} {as : List Node}
    (h : block n r = .ok (a :: as) s) : r.current.endsBlock = false := by
  by_contra hends
  cases n with
  | zero => cases h
  | succ n =>
    rw [block, current_bind, if_pos (by simpa using hends)] at h
    cases h

/-- A statement up to the end of a source is read in the same way elsewhere. -/
theorem block_elsewhere {n : Nat} {r r' t : Reader} {ts : List Token} {d : Node} (p : Placement)
    (h : block n r = .ok [d] t) (ht : t.current.isEndOfFile = true) (hr : r.Ahead ts)
    (hr' : r'.Ahead (ts.map (Token.relocate p))) :
    ∃ a t', block n r' = .ok [a] t' ∧ a.erase = d.erase ∧ t'.current.isEndOfFile = true := by
  obtain ⟨v, vs, rfl⟩ : ∃ v vs, ts = v :: vs := ⟨_, _, hr.tokens.symm⟩
  obtain ⟨hcurrent, hrest⟩ := List.cons.inj hr.tokens
  obtain ⟨hcurrent', hrest'⟩ := List.cons.inj hr'.tokens
  have hfaces : r.Faces p r' := ⟨hr.strict, hr'.strict, hr.stop, hr'.stop,
    by rw [hcurrent', hcurrent], by rw [hrest, hrest']⟩
  have hmatch := block_faces n hfaces
  rw [h] at hmatch
  obtain ⟨a, t', hn', ⟨rfl, _⟩, hfaces'⟩ := hmatch.ok
  refine ⟨_, t', hn', Node.erase_relocate _ d, ?_⟩
  rw [hfaces'.current, Token.isEndOfFile_relocate, ht]

/-- A source text with one statement is scanned behind a line break to line ends, whose number does
not depend on the place, and to tokens that are read as that statement. -/
theorem exists_behind_break {out : Parsed} {d : Node}
    (hout : parse ⟨false, tabWidth⟩ text = .ok out) (hd : out.chunk.statements = [d]) :
    ∃ k v vs, endsHere v = false ∧
      (∀ p r, r.Ahead ((v :: vs).map (Token.relocate p)) → ∃ n a t, block n r = .ok [a] t ∧
        a.erase = d.erase ∧ t.current.isEndOfFile = true) ∧
      ∀ c : Cursor, c.rest = '\n' :: text.toList → 1 ≤ c.line →
        ∃ es us p e x e', Scans tabWidth c (c.lineBreak.1 :: es ++ us) e ∧
          e.scan tabWidth = (.ok x, e') ∧ x.isEndOfFile = true ∧ es.length + 1 = k ∧
          (∀ t ∈ es, t.isEndOfLine = true) ∧ us ++ [x] = (v :: vs).map (Token.relocate p) := by
  obtain ⟨ts, e, x, e', hts, he, hx, hstream⟩ := parse_strict_scans hout
  obtain ⟨as, us, m, rfl, has, hbreak⟩ := Cursor.scans_behind_break hts he hx
  -- The first token behind the line ends of the text alone.
  obtain ⟨v, vs, hv, hvs⟩ := exists_behind_lineEnds us hx
  have hus : as ++ us ++ [x] = (as ++ us.takeWhile Token.isEndOfLine) ++ v :: vs := by
    rw [← hvs, ← List.append_assoc, List.append_assoc as (us.takeWhile _),
      List.takeWhile_append_dropWhile]
  have heols : ∀ t ∈ us.takeWhile Token.isEndOfLine, t.isEndOfLine = true :=
    List.all_eq_true.1 List.all_takeWhile
  obtain ⟨t₀, ts₀, ht₀⟩ : ∃ t ts, (as ++ us.takeWhile Token.isEndOfLine) ++ v :: vs = t :: ts :=
    List.exists_cons_of_ne_nil (by simp)
  rw [hus, ht₀] at hstream
  obtain ⟨n, t, hblock, ht⟩ := (parse_strict_ok hstream).1 ⟨out, hout, hd⟩
  obtain ⟨r, hr, hiff⟩ := block_behind_lineEnds (.ofFirst t₀ ts₀)
    (fun u hu => (List.mem_append.1 hu).elim (has u) (heols u)) ⟨rfl, rfl, ht₀.symm⟩
  obtain ⟨n, hn⟩ := (hiff _ _).1 ⟨n, hblock⟩
  refine ⟨m + (us.takeWhile Token.isEndOfLine).length + 1, v, vs, ?_, ?_, ?_⟩
  · have hends : v.endsBlock = false := by
      rw [← hr.current]
      exact not_endsBlock_of_block hn
    rw [endsHere, hv]
    exact not_endsLineBody_of_not_endsBlock hends
  · exact fun p r' hr' => ⟨n, block_elsewhere p hn ht hr hr'⟩
  · intro c hc hline
    obtain ⟨bs, lines, offset, hm, hbs, hscans⟩ := hbreak c hc hline
    have hsplit : us.map (Token.relocate (.shift lines offset 0)) =
        (us.takeWhile Token.isEndOfLine).map (Token.relocate (.shift lines offset 0)) ++
          (us.dropWhile Token.isEndOfLine).map (Token.relocate (.shift lines offset 0)) := by
      rw [← List.map_append, List.takeWhile_append_dropWhile]
    rw [hsplit, ← List.append_assoc] at hscans
    refine ⟨bs ++ (us.takeWhile Token.isEndOfLine).map (Token.relocate (.shift lines offset 0)),
      _, .shift lines offset 0, _, _, _, hscans,
      (Cursor.scan_shift lines offset 0 (hts.onPage (Cursor.ofSource_onPage text)) he).1, hx,
      ?_, ?_, ?_⟩
    · simp [hm]
    · intro t ht
      obtain ht | ht := List.mem_append.1 ht
      · exact hbs t ht
      · obtain ⟨u, hu, rfl⟩ := List.mem_map.1 ht
        exact heols u hu
    · rw [← hvs, List.map_append]
      rfl

/-- How many line ends are in front is seen in the tokens. -/
theorem leadingLineEnds_eq {es vs : List Token} {v : Token} {stop : Option LexError}
    {errors : List LexError}
    (h : TokenStream.ofSource ⟨false, tabWidth⟩ text = ⟨es ++ v :: vs, stop, errors⟩)
    (hes : ∀ t ∈ es, t.isEndOfLine = true) (hv : v.isEndOfLine = false) :
    leadingLineEnds tabWidth text = es.length := by
  rw [leadingLineEnds, h]
  simp only
  rw [List.takeWhile_append_of_pos hes, List.takeWhile_cons, hv]
  simp

/-- The tokens of a line of headers in front of a simple line and a source text with one
statement. -/
theorem ofSource_nested_line {hs : List Header} (hhs : hs ≠ [])
    (hn : ∀ h ∈ hs, ∀ x ∈ h.names, isName x = true) (hline : SimpleLine tabWidth s node)
    {out : Parsed} {d : Node} (hout : parse ⟨false, tabWidth⟩ text = .ok out)
    (hd : out.chunk.statements = [d]) :
    ∃ xs w ws es v vs m, TokenStream.ofSource ⟨false, tabWidth⟩ (Header.line s hs ++ "\n" ++ text) =
        ⟨xs ++ (w :: ws) ++ (es ++ v :: vs), none, []⟩ ∧ Spells hs xs ∧ w.opensSimple = true ∧
      ReadsLine m node (w :: ws) (es ++ v :: vs) ∧ (∀ t ∈ es, t.isEndOfLine = true) ∧
      es.length = leadingLineEnds tabWidth ("\n" ++ text) ∧ es ≠ [] ∧ endsHere v = false ∧
      ∀ r : Reader, r.Ahead (v :: vs) → ∃ n a t, block n r = .ok [a] t ∧ a.erase = d.erase ∧
        t.current.isEndOfFile = true := by
  obtain ⟨k, v, vs, hv, hread, hbreak⟩ := exists_behind_break hout hd
  obtain ⟨w, ws, L, f, c', hws, _, hreturn, hb, hc', hw, hplain, m, t, hstatement, ht⟩ :=
    hline.scans
  have hcount : leadingLineEnds tabWidth ("\n" ++ text) = k := by
    obtain ⟨es, us, p, e, x, e', hscans, he, hx, hk, hes, hus⟩ :=
      hbreak (.ofSource ("\n" ++ text)) (by simp [Cursor.ofSource]) (Nat.le_refl 1)
    have hstream := TokenStream.ofSource_of_scans hscans he hx
    rw [List.append_assoc, hus, List.map_cons] at hstream
    rw [leadingLineEnds_eq hstream (List.forall_mem_cons.2 ⟨rfl, hes⟩) (not_eol_of_not_endsHere hv),
      List.length_cons, hk]
  obtain ⟨h, hs, rfl⟩ := List.exists_cons_of_ne_nil hhs
  obtain ⟨xs, c₁, hxs, hspells, hc₁⟩ := Header.scans_line tabWidth s hs h hn
    (show ∀ y ∈ [], isBlank y = true by simp)
    (show (Cursor.ofSource (Header.line s (h :: hs) ++ "\n" ++ text)).rest =
      [] ++ ((Header.line s (h :: hs)).toList ++ '\n' :: text.toList) by simp [Cursor.ofSource])
  have hpage := (hxs.onPage (Cursor.ofSource_onPage _)).advance 1
  obtain ⟨lines, offset, indent, g, hg, hgline, hflat, hbehind⟩ := scans_elsewhere hws hplain
    hreturn hb L.line_eol hc' hpage (show (c₁.advance 1).rest = s.toList ++ '\n' :: text.toList by
      simp [hc₁])
  obtain ⟨es, us, p, e, x, e', hscans, he, hx, hk, hes, hus⟩ := hbreak g hg hgline
  have hall := hxs.append ((hbehind _ _ _ hscans).of_scan_eq (Cursor.scan_space tabWidth hc₁))
  refine ⟨xs, w.relocate (.shift lines offset indent),
    ws.map (Token.relocate (.shift lines offset indent)), g.lineBreak.1 :: es, v.relocate p,
    vs.map (Token.relocate p), m, ?_, hspells, hw, ?_, List.forall_mem_cons.2 ⟨rfl, hes⟩,
    by rw [hcount, ← hk, List.length_cons], by simp, hv, fun r hr => hread p r hr⟩
  · rw [TokenStream.ofSource_of_scans hall he hx, ← List.map_cons, ← List.map_cons, ← hus]
    simp
  · intro r hr
    have hflats : (w :: ws).map (Token.relocate (.flat lines)) =
        ((w :: ws).map (Token.relocate (.shift lines offset indent))).map
          (Token.relocate (.flat 0)) := by
      rw [List.map_map]
      rfl
    obtain ⟨a, s', ha, herase, hs'⟩ := statement_elsewhere hstatement ht hflats hflat hr
    rw [hr.current, Token.isKeyword_relocate]
    exact ⟨a, s', ha, herase, hs'⟩

/-- A line of headers in front of a statement without a body and a source text with one statement
behind the line break are read as the nest and, separately, that statement, if and only if there are
more line ends between them than the conditionals move over that are not the outermost. -/
theorem parse_nested_line_iff (hs : List Header) (hhs : hs ≠ [])
    (hn : ∀ h ∈ hs, ∀ x ∈ h.names, isName x = true) (hline : SimpleLine tabWidth s node)
    (text : String) {out : Parsed} {d : Node} (hout : parse ⟨false, tabWidth⟩ text = .ok out)
    (hd : out.chunk.statements = [d]) :
    (∃ whole nest last, parse ⟨false, tabWidth⟩ (Header.line s hs ++ "\n" ++ text) = .ok whole ∧
      whole.chunk.statements = [nest, last] ∧ Nests node hs nest ∧ last.erase = d.erase) ↔
    lineEndsTaken hs.tail < leadingLineEnds tabWidth ("\n" ++ text) := by
  obtain ⟨xs, w, ws, es, v, vs, m, hstream, hspells, hw, hreads, hes, hcount, hne, hv, hlast⟩ :=
    ofSource_nested_line hhs hn hline hout hd
  obtain ⟨u, us, hu⟩ : ∃ u us, xs ++ (w :: ws) ++ (es ++ v :: vs) = u :: us :=
    List.exists_cons_of_ne_nil (by simp)
  have hiff := block_nests_iff (r := .ofFirst u us) hw hreads hes hne hv hhs hspells hlast
    ⟨rfl, rfl, hu.symm⟩
  rw [hu] at hstream
  rw [← hcount, ← hiff]
  constructor
  · rintro ⟨whole, nest, last, hwhole, hbody, hnests, herase⟩
    obtain ⟨n, t, hblock, ht⟩ := (parse_strict_ok hstream).1 ⟨whole, hwhole, hbody⟩
    exact ⟨n, nest, last, t, hblock, ht, hnests, herase⟩
  · rintro ⟨n, nest, last, t, hblock, ht, hnests, herase⟩
    obtain ⟨whole, hwhole, hbody⟩ := (parse_strict_ok hstream).2 ⟨n, t, hblock, ht⟩
    exact ⟨whole, nest, last, hwhole, hbody, hnests, herase⟩

end

theorem simpleLine_call : SimpleLine 1 "s" (.callStatement ⟨⟨1, 1⟩, ⟨1, 2⟩⟩
    (.identifier ⟨⟨1, 1⟩, ⟨1, 2⟩⟩ "s")) where
  unbroken := by simp [isLineBreak]
  parsed := ⟨_, rfl, rfl⟩
  tokens := ⟨⟨.identifier, "s", ⟨0, 1⟩, ⟨⟨1, 1⟩, ⟨1, 2⟩⟩⟩, [],
    ⟨.endOfLine, ";", ⟨1, 1⟩, ⟨⟨1, 2⟩, ⟨1, 2⟩⟩⟩, ⟨.endOfFile, "<eof>", ⟨2, 2⟩, ⟨⟨2, 1⟩, ⟨2, 1⟩⟩⟩,
    rfl, by decide, by decide⟩

/-- A loop inside a conditional leaves the line end that ends both; a conditional inside a loop
takes it, and the loop goes on. -/
theorem parse_conditional_and_loop :
    (∃ whole nest last, parse ⟨false, 1⟩ ("if c then while d s" ++ "\n" ++ "x") = .ok whole ∧
      whole.chunk.statements = [nest, last] ∧
      Nests (.callStatement ⟨⟨1, 1⟩, ⟨1, 2⟩⟩ (.identifier ⟨⟨1, 1⟩, ⟨1, 2⟩⟩ "s"))
        [.conditional "c", .whileLoop "d"] nest ∧
      last.erase = .callStatement ⟨.origin, .origin⟩ (.identifier ⟨.origin, .origin⟩ "x")) ∧
    ¬ ∃ whole nest last, parse ⟨false, 1⟩ ("while c if d then s" ++ "\n" ++ "x") = .ok whole ∧
      whole.chunk.statements = [nest, last] ∧
      Nests (.callStatement ⟨⟨1, 1⟩, ⟨1, 2⟩⟩ (.identifier ⟨⟨1, 1⟩, ⟨1, 2⟩⟩ "s"))
        [.whileLoop "c", .conditional "d"] nest ∧
      last.erase = .callStatement ⟨.origin, .origin⟩ (.identifier ⟨.origin, .origin⟩ "x") :=
  ⟨(parse_nested_line_iff [.conditional "c", .whileLoop "d"] (by simp) (by decide) simpleLine_call
      "x" rfl rfl).2 (by decide),
    fun h => absurd ((parse_nested_line_iff [.whileLoop "c", .conditional "d"] (by simp) (by decide)
      simpleLine_call "x" rfl rfl).1 h) (by decide)⟩

end LineScript
