import LineScript.Proofs.Operation.Restoring
import LineScript.Proofs.Resource.Canonical

/-!
# Imports that are not found

An import is looked up under the canonical form of its path, seen from the file that it stands in.
What is looked up and found is also read. So when preparing a program stops at an import that is not
found, there is such an import in one of the texts that were read, at the reported line, and it
leads to no file of the library.
-/

namespace LineScript

/-- The texts that are read for a file of a given text: its own, and those of the files that the
imports in them lead to. -/
inductive Library.Loads (library : Library) (mode : ReadingMode) :
    String → Parsed → String → Parsed → Prop where
  | here {target : String} {p : Parsed} : Loads library mode target p target p
  | through {target path key source file : String} {e : Extent} {p q r : Parsed}
      (statement : .importStatement e path ∈ p.chunk.visited)
      (resolved : library.resolve? target path = some key)
      (found : library.get? key = some source) (read : parse mode source = .ok q)
      (rest : Loads library mode key q file r) : Loads library mode target p file r

namespace Library

/-- What a text that is read for a file lacks: the fault is that of an import which is not found,
which stands in one of the texts read for the file, at the line of the fault, and leads to no
file. -/
def Lacks (library : Library) (mode : ReadingMode) (target : String) (p : Parsed) (fault : Fault) :
    Prop :=
  ∃ file q e path, library.Loads mode target p file q ∧
    .importStatement e path ∈ q.chunk.visited ∧ library.resolve? file path = none ∧
    fault = ⟨.importNotFound path, some e.start.line⟩

/-- What an import of a path in a file misses: the path leads to no file, or to a text that lacks
something. -/
def Misses (library : Library) (mode : ReadingMode) (target path : String) (fault : Fault) : Prop :=
  (library.resolve? target path = none ∧ fault = .of (.importNotFound path)) ∨
  ∃ key source p, library.resolve? target path = some key ∧ library.get? key = some source ∧
    parse mode source = .ok p ∧ library.Lacks mode key p fault

end Library

namespace Library

variable {library : Library} {mode : ReadingMode} {source path key target : String}

/-- What a path is resolved to can be read. -/
theorem get?_of_resolve? (h : library.resolve? source path = some key) :
    ∃ text, library.get? key = some text := by
  obtain ⟨hnormal, hfound⟩ := resolve?_eq_some h
  rw [get?, hnormal]
  exact Option.isSome_iff_exists.1 hfound

/-- What a path leads to depends on the normal forms of the file and the path only. -/
theorem resolve?_congr {source' path' : String}
    (hsource : FilePath.normalize source = FilePath.normalize source')
    (hpath : FilePath.normalize path = FilePath.normalize path') :
    library.resolve? source path = library.resolve? source' path' := by
  rw [resolve?, resolve?, FilePath.relativeTo_congr hsource hpath]

/-- A text with an import that misses something lacks it, in the line of the import unless it has a
line already. -/
theorem Misses.lacks {fault : Fault} {p : Parsed} {e : Extent}
    (h : library.Misses mode target path fault)
    (hstatement : .importStatement e path ∈ p.chunk.visited) :
    library.Lacks mode target p (fault.orLine e.start.line) := by
  rcases h with ⟨hnone, rfl⟩ | ⟨key, source, q, hkey, hsource, hparse, hlacks⟩
  · exact ⟨target, p, e, path, .here, hstatement, hnone, rfl⟩
  · obtain ⟨file, r, e', path', hloads, hstatement', hnone, rfl⟩ := hlacks
    exact ⟨file, r, e', path', .through hstatement hkey hsource hparse hloads, hstatement', hnone,
      rfl⟩

end Library

namespace Lowering

variable {library : Library} {mode : ReadingMode} {inner f : String → Lowering Operation}
  {path : String} {l l' : Linker}

/-- All that can become of an import: it leads nowhere, to a file that is opened, to a text that
cannot be read, or to nodes that are lowered in its place. -/
theorem importStep_cases (library : Library) (mode : ReadingMode)
    (inner : String → Lowering Operation) (path : String) (l : Linker) :
    (library.resolve? l.target path = none ∧
      importStep library mode inner path l = .error (.run (.of (.importNotFound path))) l) ∨
    ∃ key source, library.resolve? l.target path = some key ∧ library.get? key = some source ∧
      (importStep library mode inner path l = .ok .noop l ∨
      (∃ e, parse mode source = .error e ∧
        importStep library mode inner path l = .error (.ofSource e) l) ∨
      ∃ p, parse mode source = .ok p ∧
        importStep library mode inner path l =
          match p.chunk.lower inner
              (Linker.enter { l with recovered := l.recovered ++ p.errors.map .ofSource } key) with
          | .ok chunk l' => .ok (.imported key chunk) (l'.leave l.target)
          | .error e l' => .error e (l'.leave l.target)) := by
  rw [importStep_eq, importFrom_apply, Resources.lead, Library.resources]
  dsimp only
  cases hkey : library.resolve? l.target path with
  | none => exact .inl ⟨rfl, rfl⟩
  | some key =>
    obtain ⟨source, hsource⟩ := Library.get?_of_resolve? hkey
    refine .inr ⟨key, source, rfl, hsource, ?_⟩
    dsimp only
    cases l.opened.contains key with
    | true => exact .inl rfl
    | false =>
      simp only [Bool.false_eq_true, if_false, hsource]
      cases hparse : parse mode source with
      | error e => exact .inr (.inl ⟨e, rfl, rfl⟩)
      | ok p =>
        refine .inr (.inr ⟨p, rfl, ?_⟩)
        dsimp only
        rw [bind_apply, within, Linker.record, List.flatMap_singleton]
        cases p.chunk.lower inner (Linker.enter _ key) with
        | ok chunk l' => rfl
        | error e l' => rfl

/-- A step of lowering leaves the file whose nodes are being lowered as it is. -/
def KeepsTarget {α : Type} (x : Lowering α) : Prop :=
  ∀ l a l', x l = .ok a l' → l'.target = l.target

theorem importFile_keepsTarget (n : Nat) (path : String) :
    KeepsTarget (importFile library mode n path) := by
  intro l o l' h
  cases n with
  | zero =>
    cases h
    rfl
  | succ n =>
    rw [importFile] at h
    rcases importStep_cases library mode (importFile library mode n) path l with
      ⟨-, hstep⟩ | ⟨key, source, -, -, hstep | ⟨e, -, hstep⟩ | ⟨p, -, hstep⟩⟩
    · rw [hstep] at h
      cases h
    · rw [hstep] at h
      cases h
      rfl
    · rw [hstep] at h
      cases h
    · rw [hstep] at h
      split at h
      · cases h
        rfl
      · cases h

theorem inspect_keepsTarget (hf : ∀ path, KeepsTarget (f path)) (n : Node) :
    KeepsTarget (inspect f n) := by
  intro l a l' h
  cases hn : n.mistake? with
  | some fault =>
    rw [inspect_of_mistake hn] at h
    cases h
  | none =>
    cases n with
    | importStatement e path =>
      rw [inspect, atLine, discard_apply] at h
      cases hpath : f path l with
      | ok o l₁ =>
        rw [hpath] at h
        cases h
        exact hf path l o l' hpath
      | error e₁ l₁ =>
        rw [hpath] at h
        cases h
    | _ =>
      rw [inspect_of_none rfl hn] at h
      cases h
      rfl

/-- What visiting nodes stops with is what visiting one of them stops with. -/
theorem exists_inspect_of_check (hf : ∀ path, KeepsTarget (f path)) {ns : List Node}
    {e : ScriptError} (h : check f ns l = .error e l') :
    ∃ n ∈ ns, ∃ l₁ l₂, l₁.target = l.target ∧ inspect f n l₁ = .error e l₂ := by
  induction ns generalizing l with
  | nil => cases h
  | cons n ns ih =>
    rw [check, bind_apply] at h
    cases hn : inspect f n l with
    | ok a l₁ =>
      rw [hn] at h
      obtain ⟨m, hm, l₂, l₃, htarget, hstop⟩ := ih h
      have hkept := inspect_keepsTarget hf n l a l₁ hn
      exact ⟨m, List.mem_cons_of_mem _ hm, l₂, l₃, htarget.trans hkept, hstop⟩
    | error e₁ l₁ =>
      rw [hn] at h
      cases h
      exact ⟨n, List.mem_cons_self, l, l', rfl, hn⟩

/-- Only an import stops at an import that is not found. -/
theorem import_of_inspect {n : Node} {fault : Fault}
    (h : inspect f n l = .error (.run fault) l') (hkind : fault.kind = .importNotFound path) :
    ∃ e imported fault', n = .importStatement e imported ∧
      f imported l = .error (.run fault') l' ∧ fault = fault'.orLine e.start.line := by
  cases hn : n.mistake? with
  | some fault' =>
    rw [inspect_of_mistake hn] at h
    obtain ⟨t, _, _, rfl⟩ := Node.mistake?_eq_some.1 hn
    cases h
    cases hkind
  | none =>
    cases n with
    | importStatement e imported =>
      rw [inspect, atLine, discard_apply] at h
      cases himport : f imported l with
      | ok o l₁ =>
        rw [himport] at h
        cases h
      | error e₁ l₁ =>
        rw [himport] at h
        cases e₁ with
        | run fault' =>
          cases h
          exact ⟨e, imported, fault', rfl, himport, rfl⟩
        | _ => cases h
    | _ =>
      rw [inspect_of_none rfl hn] at h
      cases h

/-- If the imports in a text stop only where they miss something, lowering it finds no file for one
only if the text lacks it. -/
theorem lacks_of_lower (hf : ∀ path, KeepsTarget (f path))
    (hmisses : ∀ path l fault l' q, f path l = .error (.run fault) l' →
      fault.kind = .importNotFound q → library.Misses mode l.target path fault)
    {source : String} {p : Parsed} (hparse : parse mode source = .ok p) {fault : Fault}
    (h : p.chunk.lower f l = .error (.run fault) l') (hkind : fault.kind = .importNotFound path) :
    library.Lacks mode l.target p fault := by
  have hcheck : check f p.chunk.visited l = .error (.run fault) l' := by
    rw [← Node.lower_checks p.chunk (parse_known hparse), discard_apply, h]
  obtain ⟨n, hn, l₁, l₂, htarget, hstop⟩ := exists_inspect_of_check hf hcheck
  obtain ⟨e, imported, fault', rfl, himport, rfl⟩ := import_of_inspect hstop hkind
  have hkind' : fault'.kind = .importNotFound path := by
    rw [← hkind, Fault.orLine]
    split <;> rfl
  rw [← htarget]
  exact (hmisses imported l₁ fault' l₂ path himport hkind').lacks hn

/-- An import stops at an import that is not found only where it misses something. -/
theorem misses_of_importFile (n : Nat) (path : String) (l : Linker) (fault : Fault) (l' : Linker)
    (q : String) (h : importFile library mode n path l = .error (.run fault) l')
    (hkind : fault.kind = .importNotFound q) : library.Misses mode l.target path fault := by
  induction n generalizing path l fault l' q with
  | zero => cases h
  | succ n ih =>
    rw [importFile] at h
    rcases importStep_cases library mode (importFile library mode n) path l with
      ⟨hnone, hstep⟩ | ⟨key, source, hkey, hsource, hstep | ⟨e, -, hstep⟩ | ⟨p, hparse, hstep⟩⟩
    · rw [hstep] at h
      cases h
      exact .inl ⟨hnone, rfl⟩
    · rw [hstep] at h
      cases h
    · rw [hstep] at h
      cases e <;> cases h
    · rw [hstep] at h
      split at h
      · cases h
      next e l₁ hlower =>
        cases h
        refine .inr ⟨key, source, p, hkey, hsource, hparse, ?_⟩
        exact lacks_of_lower (importFile_keepsTarget n) ih hparse hlower hkind

end Lowering

/-- When a program cannot be prepared because of an import that is not found, its text lacks a
file. -/
theorem lacks_of_prepare {library : Library} {mode : ReadingMode} {target source path : String}
    {fault : Fault} (h : prepare library mode target source = .error (.run fault))
    (hkind : fault.kind = .importNotFound path) :
    ∃ p, parse mode source = .ok p ∧ library.Lacks mode target p fault := by
  unfold prepare at h
  cases hparse : parse mode source with
  | error e =>
    rw [hparse] at h
    cases e <;> cases h
  | ok p =>
    rw [hparse] at h
    dsimp only at h
    cases hlower : p.chunk.lowerWith library mode (Linker.ofTarget target) with
    | ok o l =>
      rw [hlower] at h
      cases h
    | error e l =>
      rw [hlower] at h
      cases h
      refine ⟨p, rfl, ?_⟩
      exact Lowering.lacks_of_lower (Lowering.importFile_keepsTarget _)
        (Lowering.misses_of_importFile _) hparse hlower hkind

/-- Paths are canonical. A path is its own normal form exactly if it has the shape of one, every
normal form has, and it begins at the root exactly if the path does. Behind a directory, a path that
does not begin at the root may be brought into normal form first. So the file that a path leads to
depends on the normal forms of the importing file and of the path only, its name is in normal form,
and its text can be read. Preparing a program stops at an import that is not found only if one
stands at the reported line of a text that was read and leads to no file. -/
theorem resolution_canonical :
    (∀ path, FilePath.normalize (FilePath.normalize path) = FilePath.normalize path ∧
      FilePath.isAbsolute (FilePath.normalize path).toList = FilePath.isAbsolute path.toList ∧
      FilePath.Canonical (FilePath.isAbsolute path.toList) (FilePath.normalize path).toList ∧
      (FilePath.normalize path = path ↔
        FilePath.Canonical (FilePath.isAbsolute path.toList) path.toList)) ∧
    (∀ dir path : String, FilePath.isAbsolute path.toList = false →
      FilePath.normalize (dir ++ "/" ++ path) =
        FilePath.normalize (dir ++ "/" ++ FilePath.normalize path)) ∧
    (∀ library : Library,
      (∀ source source' path path', FilePath.normalize source = FilePath.normalize source' →
        FilePath.normalize path = FilePath.normalize path' →
        library.resolve? source path = library.resolve? source' path') ∧
      (∀ source path key, library.resolve? source path = some key →
        FilePath.normalize key = key ∧ ∃ text, library.get? key = some text) ∧
      ∀ mode target source fault path,
        prepare library mode target source = .error (.run fault) →
        fault.kind = .importNotFound path →
        ∃ p, parse mode source = .ok p ∧ library.Lacks mode target p fault) := by
  refine ⟨?paths, ?joining, fun library => ⟨?alike, ?found, ?missing⟩⟩
  case paths =>
    intro path
    exact ⟨FilePath.normalize_normalize path, FilePath.isAbsolute_normalize path,
      FilePath.canonical_normalize path, FilePath.normalize_eq_iff path⟩
  case joining =>
    intro dir path hpath
    exact (FilePath.normalize_append dir hpath).symm
  case alike =>
    intro source source' path path' hsource hpath
    exact Library.resolve?_congr hsource hpath
  case found =>
    intro source path key h
    exact ⟨(Library.resolve?_eq_some h).1, Library.get?_of_resolve? h⟩
  case missing =>
    intro mode target source fault path h hkind
    exact lacks_of_prepare h hkind

/-- A library of one file in a directory. -/
def shelf : Library := ⟨[("lib/util", "x = 1")]⟩

/-- The tree of a file that imports one which is not there. -/
def strayImport : Node :=
  .chunk ⟨⟨1, 1⟩, ⟨1, 14⟩⟩ [.importStatement ⟨⟨1, 1⟩, ⟨1, 14⟩⟩ "gone"] []

theorem resolution_canonical_shelf :
    FilePath.isAbsolute "../b/./c".toList = false ∧
      FilePath.normalize ("a/x" ++ "/" ++ "../b/./c") =
        FilePath.normalize ("a/x" ++ "/" ++ FilePath.normalize "../b/./c") ∧
      FilePath.normalize "a/../main" = FilePath.normalize "./main" ∧
      FilePath.normalize "lib/util" = FilePath.normalize "./lib//util" ∧
      shelf.resolve? "a/../main" "lib/util" = shelf.resolve? "./main" "./lib//util" ∧
      shelf.resolve? "./main" "./lib//util" = some "lib/util" ∧
      (∃ text, shelf.get? "lib/util" = some text) ∧
      prepare shelf ⟨false, 1⟩ "main" "import \"gone\"" =
        .error (.run ⟨.importNotFound "gone", some 1⟩) ∧
      ∃ p, parse ⟨false, 1⟩ "import \"gone\"" = .ok p ∧
        shelf.Lacks ⟨false, 1⟩ "main" p ⟨.importNotFound "gone", some 1⟩ := by
  have hrelative : FilePath.isAbsolute "../b/./c".toList = false := by cbv
  have hfile : FilePath.normalize "a/../main" = FilePath.normalize "./main" := by cbv
  have hpath : FilePath.normalize "lib/util" = FilePath.normalize "./lib//util" := by cbv
  have hresolve : shelf.resolve? "./main" "./lib//util" = some "lib/util" := by cbv
  have hparse : parse ⟨false, 1⟩ "import \"gone\"" = .ok ⟨strayImport, []⟩ := by cbv
  have hnone : shelf.resolve? "main" "gone" = none := by
    have hkey : FilePath.relativeTo "main" "gone" = "gone" := by cbv
    simp [Library.resolve?, hkey, Library.find?, shelf]
  have hprepare : prepare shelf ⟨false, 1⟩ "main" "import \"gone\"" =
      .error (.run ⟨.importNotFound "gone", some 1⟩) := by
    have hstep : Lowering.importFile shelf ⟨false, 1⟩ (shelf.files.length + 1) "gone"
        (.ofTarget "main") = .error (.run (.of (.importNotFound "gone"))) (.ofTarget "main") := by
      rcases Lowering.importStep_cases shelf ⟨false, 1⟩ (Lowering.importFile shelf ⟨false, 1⟩ 1)
        "gone" (.ofTarget "main") with ⟨-, hstep⟩ | ⟨key, _, hkey, -⟩
      · exact hstep
      · exact absurd (hnone.symm.trans hkey) (by simp)
    unfold prepare
    rw [hparse]
    simp only [strayImport, Node.lowerWith, Node.lower, Node.lowerBlock, Lowering.atLine,
      Lowering.bind_apply, hstep]
    rfl
  obtain ⟨-, hjoining, hlibrary⟩ := resolution_canonical
  obtain ⟨halike, hfound, hmissing⟩ := hlibrary shelf
  exact ⟨hrelative, hjoining _ _ hrelative, hfile, hpath, halike _ _ _ _ hfile hpath, hresolve,
    (hfound _ _ _ hresolve).2, hprepare, hmissing _ _ _ _ "gone" hprepare rfl⟩

end LineScript
