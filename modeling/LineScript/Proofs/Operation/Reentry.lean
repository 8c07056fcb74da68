import LineScript.Proofs.Operation.Targets
import Mathlib.Logic.Relation

/-!
# Files that lead back to themselves

The files of a library are linked by the imports in their texts. Lowering follows the links and
enters no file that is opened already, so the files imported in a lowered tree are those that are
reached along links without going through an opened one. The file that lowering starts with is
opened under the name that it was given, while all others are opened under their normal forms. Main
statement: the file itself is imported in its own tree if and only if links lead back to it and the
name that it was given is not in normal form.
-/

namespace LineScript

namespace Operation

/-- Somewhere in a tree of operations a file is imported. -/
inductive Imports (key : String) : Operation → Prop where
  | here {o : Operation} (target : o.target? = some key) : Imports key o
  | deeper {o c : Operation} (part : c ∈ o.parts) (rest : Imports key c) : Imports key o

variable {key : String} {o : Operation}

theorem imports_iff :
    o.Imports key ↔ o.target? = some key ∨ ∃ c ∈ o.parts, c.Imports key := by
  constructor
  · intro h
    cases h with
    | here target => exact .inl target
    | deeper part rest => exact .inr ⟨_, part, rest⟩
  · rintro (h | ⟨c, hc, h⟩)
    · exact .here h
    · exact .deeper hc h

theorem imports_iff_parts (ho : o.target? = none) :
    o.Imports key ↔ ∃ c ∈ o.parts, c.Imports key := by
  rw [imports_iff]
  simp [ho]

theorem imports_imported {target : String} {chunk : Operation} :
    (Operation.imported target chunk).Imports key ↔ key = target ∨ chunk.Imports key := by
  rw [imports_iff]
  simp [target?, parts, eq_comm]

end Operation

namespace Node

/-- The path that a node imports. -/
def importPath? : Node → Option String
  | .importStatement _ path => some path
  | _ => none

/-- The paths that are imported in a tree, in the order in which they are lowered. -/
def importPaths (n : Node) : List String := n.visited.filterMap importPath?

theorem importPaths_eq (n : Node) :
    n.importPaths = n.importPath?.toList ++ n.children.flatMap importPaths := by
  rw [importPaths, visited_eq]
  have hchildren : (n.children.flatMap visited).filterMap importPath? =
      n.children.flatMap importPaths := List.filterMap_flatMap
  cases h : n.importPath? with
  | none => simp [h, hchildren]
  | some path => simp [h, hchildren]

end Node

/-- Operations import exactly the files that imports of the paths bring in. -/
def Brings (B : String → String → Prop) (os : List Operation) (paths : List String) : Prop :=
  ∀ key, (∃ o ∈ os, o.Imports key) ↔ ∃ path ∈ paths, B path key

namespace Brings

variable {B : String → String → Prop} {os os' : List Operation} {paths paths' : List String}
  {o : Operation}

theorem nil : Brings B [] [] := by
  intro key
  simp

theorem append (h : Brings B os paths) (h' : Brings B os' paths') :
    Brings B (os ++ os') (paths ++ paths') := by
  intro key
  simp only [List.mem_append, or_and_right, exists_or, h key, h' key]

theorem cons (h : Brings B [o] paths) (h' : Brings B os paths') :
    Brings B (o :: os) (paths ++ paths') :=
  h.append h'

/-- An operation that imports nothing itself imports what its parts import. -/
theorem iff_parts (ho : o.target? = none) : Brings B [o] paths ↔ Brings B o.parts paths := by
  unfold Brings
  simp only [List.mem_singleton, exists_eq_left, Operation.imports_iff_parts ho]

/-- The segments of a node that was lowered import what the whole imports. -/
theorem segments (n : Node) (h : Brings B [o] paths) :
    Brings B ((n.segments o).flatMap Segment.parts) paths := by
  unfold Node.segments
  split
  · exact (iff_parts rfl).1 h
  · simpa [Segment.parts] using h

end Brings

namespace Node

open Lowering (Agree)

variable {B : String → String → Prop} {opened : List String} {target : String}
  {f : String → Lowering Operation}

/-- What a node becomes imports the files that the imports in it bring in. -/
abbrev BringsIn (B : String → String → Prop) (opened : List String) (target : String)
    (f : String → Lowering Operation) (n : Node) : Prop :=
  Agree opened target (fun o => Brings B [o] n.importPaths) (n.lower f) (n.lower f)

theorem lowerList_brings {ns : List Node} (h : ∀ n ∈ ns, n.BringsIn B opened target f) :
    Agree opened target (fun os => Brings B os (ns.flatMap importPaths)) (lowerList f ns)
      (lowerList f ns) := by
  induction ns with
  | nil =>
    rw [lowerList]
    exact .pure .nil
  | cons n ns ih =>
    obtain ⟨hn, hns⟩ := List.forall_mem_cons.1 h
    rw [lowerList]
    exact .bind hn fun o ho => .bind (ih hns) fun os hos => .pure (ho.cons hos)

theorem lowerBlock_brings {ns : List Node} (h : ∀ n ∈ ns, n.BringsIn B opened target f) :
    Agree opened target (fun ss => Brings B (ss.map Statement.operation) (ns.flatMap importPaths))
      (lowerBlock f ns) (lowerBlock f ns) := by
  induction ns with
  | nil =>
    rw [lowerBlock]
    exact .pure .nil
  | cons n ns ih =>
    obtain ⟨hn, hns⟩ := List.forall_mem_cons.1 h
    rw [lowerBlock]
    exact .bind hn fun o ho => .bind (ih hns) fun ss hss => .pure (ho.cons hss)

theorem lowerParameters_brings {ps : List Parameter}
    (h : ∀ n ∈ ps.flatMap (·.default.toList), n.BringsIn B opened target f) :
    Agree opened target (fun fs => Brings B (fs.flatMap (·.default.toList))
        ((ps.flatMap (·.default.toList)).flatMap importPaths))
      (lowerParameters f ps) (lowerParameters f ps) := by
  induction ps with
  | nil =>
    rw [lowerParameters]
    exact .pure .nil
  | cons p ps ih =>
    have hps := ih fun n hn => h n (by simp_all)
    cases p with
    | mk e name default =>
      cases default with
      | none =>
        rw [lowerParameters]
        exact .bind hps fun fs hfs => .pure hfs
      | some d =>
        rw [lowerParameters]
        have hd := h d (by simp [Parameter.default])
        exact .bind hd fun o ho => .bind hps fun fs hfs => .pure (ho.cons hfs)

theorem lowerClauses_brings {cs : List Clause}
    (h : ∀ n ∈ cs.flatMap fun k => k.condition.toList ++ k.body, n.BringsIn B opened target f) :
    Agree opened target (fun bs => Brings B (bs.flatMap Branch.parts)
        ((cs.flatMap fun k => k.condition.toList ++ k.body).flatMap importPaths))
      (lowerClauses f cs) (lowerClauses f cs) := by
  induction cs with
  | nil =>
    rw [lowerClauses]
    exact .pure .nil
  | cons c cs ih =>
    rw [List.flatMap_cons, List.forall_mem_append] at h
    obtain ⟨hc, hcs⟩ := h
    cases c with
    | mk e kind condition body =>
      obtain ⟨hcondition, hbody⟩ := List.forall_mem_append.1 hc
      have hbody := lowerBlock_brings hbody
      rw [List.flatMap_cons, List.flatMap_append, List.flatMap_append]
      cases condition with
      | none =>
        rw [lowerClauses]
        refine .bind hbody fun ss hss => .bind (ih hcs) fun bs hbs => .pure ?_
        have htrue : Brings B [.constant true] [] := (Brings.iff_parts rfl).2 .nil
        exact (htrue.cons hss).append hbs
      | some n =>
        rw [lowerClauses]
        have hn := hcondition n (by simp [Clause.condition])
        refine .bind hn fun o ho => .bind hbody fun ss hss => .bind (ih hcs) fun bs hbs => .pure ?_
        have hpaths : (Clause.mk e kind (some n) body).condition.toList.flatMap importPaths =
            n.importPaths := by simp [Clause.condition]
        rw [hpaths]
        exact (ho.cons hss).append hbs

theorem lowerFields_brings {fs : List Field}
    (h : ∀ n ∈ fs.map (·.value), n.BringsIn B opened target f) :
    Agree opened target
      (fun es => Brings B (es.map (·.2)) ((fs.map (·.value)).flatMap importPaths))
      (lowerFields f fs) (lowerFields f fs) := by
  induction fs with
  | nil =>
    rw [lowerFields]
    exact .pure .nil
  | cons c fs ih =>
    obtain ⟨hc, hfs⟩ := List.forall_mem_cons.1 h
    cases c with
    | mk e key value =>
      rw [lowerFields]
      exact .bind hc fun o ho => .bind (ih hfs) fun es hes => .pure (ho.cons hes)

/-- What a tree becomes imports the files that the imports in the tree bring in. -/
theorem lower_brings
    (h : ∀ path, Agree opened target (fun o => Brings B [o] [path]) (f path) (f path)) (n : Node) :
    n.BringsIn B opened target f := by
  induction n using Node.induction with
  | step n operands statements =>
    have children : ∀ c ∈ n.children, c.BringsIn B opened target f := by
      intro c hc
      rcases mem_children.1 hc with hc | hc
      · exact operands c hc
      · exact statements c hc
    -- the parts of what a node becomes stand in the order of its children
    have whole : ∀ {o : Operation}, n.importPath? = none → o.target? = none →
        Brings B o.parts (n.children.flatMap importPaths) → Brings B [o] n.importPaths := by
      intro o hn ho hparts
      rw [importPaths_eq, hn]
      exact (Brings.iff_parts ho).2 hparts
    unfold BringsIn
    cases n <;> simp only [Node.children, Node.operands, Node.statements, List.append_nil,
      List.nil_append, List.flatMap_append, List.flatMap_cons, List.flatMap_nil,
      List.forall_mem_append, List.forall_mem_cons, List.not_mem_nil, false_implies,
      implies_true, and_true] at children whole
    all_goals try simp only [lower]
    case chunk e body names =>
      refine .atLine _ (.bind (lowerBlock_brings children) fun ss hss => .pure ?_)
      exact whole rfl rfl hss
    case assignment e assigned value =>
      refine .atLine _ ?_
      split
      · refine .bind children.1 fun t ht => .bind children.2 fun v hv => .pure ?_
        exact whole rfl rfl ((ht.segments assigned).append hv)
      · exact .throw _
    case callStatement e expression =>
      have hpaths : (Node.callStatement e expression).importPaths = expression.importPaths := by
        simp [importPaths_eq (.callStatement e expression), importPath?, Node.children,
          Node.operands, Node.statements]
      rw [hpaths]
      exact .atLine _ children
    case function e name parameters body =>
      refine .atLine _ (.bind (lowerParameters_brings children.1) fun ps hps => ?_)
      refine .bind (lowerBlock_brings children.2) fun ss hss => .pure ?_
      exact whole rfl rfl (hps.append hss)
    case returnStatement e argument =>
      cases argument with
      | none =>
        rw [lower]
        exact .atLine _ (.pure (whole rfl rfl .nil))
      | some a =>
        rw [lower]
        refine .atLine _ (.bind (children a (by simp)) fun o ho => .pure ?_)
        exact whole rfl rfl (by simpa [Operation.parts] using ho)
    case conditional e clauses =>
      refine .atLine _ (.bind (lowerClauses_brings children) fun bs hbs => .pure ?_)
      exact whole rfl rfl hbs
    case whileLoop e condition body =>
      refine .atLine _ (.bind children.1 fun o ho => ?_)
      refine .bind (lowerBlock_brings children.2) fun ss hss => .pure ?_
      exact whole rfl rfl (ho.cons hss)
    case forLoop e assigned iterator body =>
      refine .atLine _ ?_
      split
      · refine .bind children.1.1 fun t ht => .bind children.1.2 fun i hi => ?_
        refine .bind (lowerBlock_brings children.2) fun ss hss => .pure ?_
        refine whole rfl rfl ?_
        rw [List.append_assoc]
        exact (ht.segments assigned).append (hi.cons hss)
      · exact .throw _
    case importStatement e path =>
      have hpaths : (Node.importStatement e path).importPaths = [path] := by
        simp [importPaths_eq, importPath?, Node.children, Node.operands, Node.statements]
      rw [hpaths]
      exact .atLine _ (h path)
    case member e origin name =>
      refine .atLine _ (.bind children.1 fun o ho => .bind children.2 fun m hm => .pure ?_)
      refine whole rfl rfl ?_
      rw [Operation.parts, List.flatMap_append]
      exact (ho.segments origin).append (hm.segments name)
    case index e origin key =>
      refine .atLine _ (.bind children.1 fun o ho => .bind children.2 fun k hk => .pure ?_)
      refine whole rfl rfl ?_
      rw [Operation.parts, List.flatMap_append]
      exact (ho.segments origin).append (by simpa [Segment.parts] using hk)
    case call e origin arguments =>
      refine .atLine _ (.bind children.1 fun o ho => ?_)
      refine .bind (lowerList_brings children.2) fun os hos => .pure ?_
      exact whole rfl rfl ((ho.segments origin).append hos)
    case negation e argument | signed e operator argument =>
      exact .atLine _ (.bind children fun o ho => .pure (whole rfl rfl ho))
    case unary e operator argument =>
      refine .atLine _ ?_
      split
      · exact .bind children fun o ho => .pure (whole rfl rfl ho)
      · exact .throw _
    case binary e operator left right | logical e operator left right =>
      refine .atLine _ (.bind children.1 fun a ha => .bind children.2 fun b hb => .pure ?_)
      exact whole rfl rfl (ha.cons hb)
    case mapLiteral e fields =>
      refine .atLine _ (.bind (lowerFields_brings children) fun es hes => .pure ?_)
      exact whole rfl rfl hes
    case listLiteral e items =>
      refine .atLine _ (.bind (lowerList_brings children) fun os hos => .pure ?_)
      exact whole rfl rfl hos
    all_goals exact .pure (whole rfl rfl .nil)

end Node

namespace FilePath

/-- What a path means in a file depends on the normal form of the file only. -/
theorem relativeTo_normalize (source path : String) :
    relativeTo (normalize source) path = relativeTo source path := by
  simp [relativeTo, normalize, normalizeChars_normalizeChars]

end FilePath

namespace Library

variable {library : Library} {mode : ReadingMode} {opened : List String} {a b key : String}

theorem resolve?_normalize (source path : String) :
    library.resolve? (FilePath.normalize source) path = library.resolve? source path := by
  rw [resolve?, resolve?, FilePath.relativeTo_normalize]

theorem get?_normalize (path : String) :
    library.get? (FilePath.normalize path) = library.get? path := by
  rw [get?, get?, FilePath.normalize_normalize]

/-- In the text of one file another one is imported. -/
def Links (library : Library) (mode : ReadingMode) (a b : String) : Prop :=
  ∃ source p, library.get? a = some source ∧ parse mode source = .ok p ∧
    ∃ path ∈ p.chunk.importPaths, library.resolve? a path = some b

/-- Links lead from one file to another, past no opened one. -/
def Reaches (library : Library) (mode : ReadingMode) (opened : List String) :
    String → String → Prop :=
  Relation.TransGen fun a b => library.Links mode a b ∧ b ∉ opened

theorem Links.normal (h : library.Links mode a b) : FilePath.normalize b = b := by
  obtain ⟨_, _, _, _, _, _, hresolve⟩ := h
  exact (resolve?_eq_some hresolve).1

/-- The links of a file whose text is read. -/
theorem links_iff {source : String} {p : Parsed} (hsource : library.get? a = some source)
    (hparse : parse mode source = .ok p) :
    library.Links mode a b ↔ ∃ path ∈ p.chunk.importPaths, library.resolve? a path = some b := by
  constructor
  · rintro ⟨source', p', hsource', hparse', h⟩
    cases hsource'.symm.trans hsource
    cases hparse'.symm.trans hparse
    exact h
  · intro h
    exact ⟨source, p, hsource, hparse, h⟩

/-- A way to another file can be cut down to what lies behind its last visit of the first one. -/
theorem reaches_avoid
    (h : Relation.ReflTransGen (fun a b => library.Links mode a b ∧ b ∉ opened) a key) :
    key = a ∨ library.Reaches mode (a :: opened) a key := by
  induction h with
  | refl => exact .inl rfl
  | @tail b c _ hlink ih =>
    by_cases hca : c = a
    · exact .inl hca
    have hlink : library.Links mode b c ∧ c ∉ a :: opened :=
      ⟨hlink.1, by simp [hca, hlink.2]⟩
    rcases ih with rfl | hreach
    · exact .inr (.single hlink)
    · exact .inr (hreach.tail hlink)

theorem Reaches.mono {wider : List String} (hsub : opened ⊆ wider)
    (h : library.Reaches mode wider a b) : library.Reaches mode opened a b :=
  Relation.TransGen.mono (fun _ _ hlink => ⟨hlink.1, fun hmem => hlink.2 (hsub hmem)⟩) _ _ h

/-- A file is reached if it is linked, or if it is reached from a linked file while that is opened
too. -/
theorem reaches_iff :
    library.Reaches mode opened a key ↔
      ∃ b, library.Links mode a b ∧ b ∉ opened ∧
        (key = b ∨ library.Reaches mode (b :: opened) b key) := by
  constructor
  · intro h
    obtain ⟨b, ⟨hlink, hfresh⟩, hrest⟩ := Relation.TransGen.head'_iff.1 h
    exact ⟨b, hlink, hfresh, reaches_avoid hrest⟩
  · rintro ⟨b, hlink, hfresh, rfl | hreach⟩
    · exact .single ⟨hlink, hfresh⟩
    · exact .head ⟨hlink, hfresh⟩ (hreach.mono (List.subset_cons_self _ _))

/-- A file is reached past its own name if and only if links lead to it at all and the name is none
of its normal form. -/
theorem reaches_itself {target : String} :
    library.Reaches mode [target] (FilePath.normalize target) (FilePath.normalize target) ↔
      FilePath.normalize target ≠ target ∧
        library.Reaches mode [] (FilePath.normalize target) (FilePath.normalize target) := by
  constructor
  · intro h
    obtain ⟨_, _, -, hne⟩ := Relation.TransGen.tail'_iff.1 h
    exact ⟨by simpa using hne, h.mono (List.nil_subset _)⟩
  · rintro ⟨hne, h⟩
    -- everything that is linked is in normal form, so nothing is linked under the given name
    refine Relation.TransGen.mono (fun a b hlink => ⟨hlink.1, ?_⟩) _ _ h
    intro hb
    obtain rfl := List.mem_singleton.1 hb
    exact hne hlink.1.normal

end Library

namespace Lowering

variable {library : Library} {mode : ReadingMode} {opened : List String} {target : String}

/-- The files that the import of a path brings into a file: the one that it leads to, unless that is
opened, and those reached from there. -/
def Entered (library : Library) (mode : ReadingMode) (opened : List String)
    (target path key : String) : Prop :=
  ∃ g, library.resolve? target path = some g ∧ g ∉ opened ∧
    (key = g ∨ library.Reaches mode (g :: opened) g key)

/-- The imports of a file bring in what is reached from it. -/
theorem exists_entered_iff {source : String} {p : Parsed} {key : String}
    (hsource : library.get? target = some source) (hparse : parse mode source = .ok p) :
    (∃ path ∈ p.chunk.importPaths, Entered library mode opened target path key) ↔
      library.Reaches mode opened target key := by
  rw [Library.reaches_iff]
  simp only [Library.links_iff hsource hparse]
  constructor
  · rintro ⟨path, hpath, g, hresolve, hrest⟩
    exact ⟨g, ⟨path, hpath, hresolve⟩, hrest⟩
  · rintro ⟨g, ⟨path, hpath, hresolve⟩, hrest⟩
    exact ⟨path, hpath, g, hresolve, hrest⟩

/-- While fewer files are unopened than imports may nest, an import brings in what is entered from
it. -/
theorem importFile_brings {n : Nat} (opened : List String) (target : String)
    (hn : (library.unopened opened).length < n) (path : String) :
    Agree opened target (fun o => Brings (Entered library mode opened target) [o] [path])
      (importFile library mode n path) (importFile library mode n path) := by
  induction n generalizing opened target path with
  | zero => omega
  | succ n ih =>
    rw [importFile, importStep]
    refine .get fun l hopened htarget => ?_
    rw [hopened, htarget]
    cases hkey : library.resolve? target path with
    | none => exact .throw _
    | some g =>
      obtain ⟨hnormal, hfound⟩ := Library.resolve?_eq_some hkey
      have hentered : ∀ key, Entered library mode opened target path key ↔
          g ∉ opened ∧ (key = g ∨ library.Reaches mode (g :: opened) g key) := by
        intro key
        simp [Entered, hkey]
      dsimp only
      split
      next hold =>
        have hold : g ∈ opened := by simpa using hold
        refine .pure ((Brings.iff_parts rfl).2 fun key => ?_)
        simp [Operation.parts, hentered, hold]
      next hfresh =>
        have hfresh : g ∉ opened := by simpa using hfresh
        split
        · exact .throw _
        next source hsource =>
          split
          · exact .throw _
          next p hparse =>
            refine .bind (.modify (V := fun _ => True) trivial fun _ => ⟨rfl, rfl⟩) fun _ _ => ?_
            have hlt := Library.unopened_cons hfound hfresh
            have hless : (library.unopened (g :: opened)).length < n := by omega
            have hlower := Node.lower_brings (ih (g :: opened) g hless) p.chunk
            refine .bind (.within hlower) fun o ho => .pure fun key => ?_
            have hchunk := ho key
            rw [exists_entered_iff hsource hparse] at hchunk
            simp only [List.mem_singleton, exists_eq_left] at hchunk ⊢
            rw [Operation.imports_imported, hentered, hchunk]
            simp [hfresh]

end Lowering

variable {library : Library} {mode : ReadingMode} {target source : String} {program : Program}

theorem prepare_eq_ok (h : prepare library mode target source = .ok program) :
    ∃ p l, parse mode source = .ok p ∧
      p.chunk.lowerWith library mode (.ofTarget target) = .ok program.operation l := by
  unfold prepare at h
  split at h
  · cases h
  next p hparse =>
    split at h
    · cases h
    next o l hlower =>
      cases h
      exact ⟨p, l, hparse, hlower⟩

/-- The files imported in the tree of a file are those that are reached from it past the name that
it was given. -/
theorem prepare_imports (hsource : library.get? target = some source)
    (h : prepare library mode target source = .ok program) (key : String) :
    program.operation.Imports key ↔
      library.Reaches mode [target] (FilePath.normalize target) key := by
  obtain ⟨p, l, hparse, hlower⟩ := prepare_eq_ok h
  have hless : (library.unopened [target]).length < library.files.length + 1 :=
    Nat.lt_succ_of_le (library.unopened_length_le [target])
  have hbrings := Node.lower_brings (B := Lowering.Entered library mode [target] target)
    (Lowering.importFile_brings [target] target hless) p.chunk
  have himports := ((hbrings (.ofTarget target) rfl rfl).2 _ _ hlower).1 key
  rw [← Lowering.exists_entered_iff ((Library.get?_normalize target).trans hsource) hparse]
  simpa [Lowering.Entered, Library.resolve?_normalize] using himports

/-- Along a path down the tree of a file no file is imported twice. -/
theorem prepare_nested (h : prepare library mode target source = .ok program)
    {path : List Operation} (hpath : program.operation.Path path) :
    Nested library [target] (path.filterMap Operation.target?) := by
  obtain ⟨p, l, -, hlower⟩ := prepare_eq_ok h
  have hle := library.unopened_length_le [target]
  have hfresh : Lowering.Agree [target] target (·.Fresh library [target])
      (p.chunk.lowerWith library mode) (p.chunk.lowerWith library mode) := by
    rw [Node.lowerWith, Lowering.importFile_eq]
    refine Node.lower_agree (Closed.fresh library [target]) (fun path => ?_) p.chunk
    exact Lowering.importNested_agree _ _ (by omega) (by omega) path
  exact ((hfresh (.ofTarget target) rfl rfl).2 _ _ hlower).1 path hpath

/-- A file that is prepared under a name is imported again in its own tree if and only if imports
lead back to it and the name is not the normal form of its path. On no path down the tree it is
imported twice. -/
theorem prepare_reentry (hsource : library.get? target = some source)
    (h : prepare library mode target source = .ok program) :
    (program.operation.Imports (FilePath.normalize target) ↔
      FilePath.normalize target ≠ target ∧
        library.Reaches mode [] (FilePath.normalize target) (FilePath.normalize target)) ∧
    ∀ path, program.operation.Path path →
      (path.filterMap Operation.target?).count (FilePath.normalize target) ≤ 1 := by
  constructor
  · rw [prepare_imports hsource h]
    exact Library.reaches_itself
  · intro path hpath
    exact List.nodup_iff_count_le_one.1 (prepare_nested h hpath).distinct _

/-- The tree of a file that imports itself. -/
def selfImport : Node :=
  .chunk ⟨⟨1, 1⟩, ⟨1, 14⟩⟩ [.importStatement ⟨⟨1, 1⟩, ⟨1, 14⟩⟩ "main"] []

/-- A library with one file that imports itself. -/
def selfLibrary : Library := ⟨[("main", "import \"main\"")]⟩

theorem prepare_reentry_selfImport :
    ∃ program, prepare selfLibrary ⟨false, 1⟩ "./main" "import \"main\"" = .ok program ∧
      selfLibrary.get? "./main" = some "import \"main\"" ∧ FilePath.normalize "./main" = "main" ∧
      program.operation.Imports "main" := by
  have hnormal : FilePath.normalize "./main" = "main" := by cbv
  have hsource : selfLibrary.get? "./main" = some "import \"main\"" := by cbv
  have hparse : parse ⟨false, 1⟩ "import \"main\"" = .ok ⟨selfImport, []⟩ := by cbv
  have hlink : selfLibrary.Links ⟨false, 1⟩ "main" "main" := by
    refine ⟨_, _, by cbv, hparse, "main", ?_, by cbv⟩
    simp [selfImport, Node.importPaths, Node.visited_eq, Node.children, Node.operands,
      Node.statements, Node.importPath?]
  have hprepare : prepare selfLibrary ⟨false, 1⟩ "./main" "import \"main\"" =
      .ok ⟨.chunk [.mk (.imported "main" (.chunk [.mk .noop ⟨1, 1⟩])) ⟨1, 1⟩], [], []⟩ := by
    unfold prepare
    rw [hparse]
    rfl
  have h := prepare_reentry hsource hprepare
  rw [hnormal] at h
  exact ⟨_, hprepare, hsource, hnormal, h.1.2 ⟨by decide, .single ⟨hlink, by simp⟩⟩⟩

end LineScript
