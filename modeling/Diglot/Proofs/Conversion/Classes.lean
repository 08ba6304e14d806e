import Diglot.Proofs.Emitted.ClassMeaning

/-!
# Conversion of classes

A bracketed class that has been read is lowered and written to a text that matches the members of the
class and nothing else, one character at a time (`matchesChar_of_class`). This holds for every edition
of the host, where no part of the pattern ignores case.
-/

namespace Diglot

open Core Emitted Host

theorem caseMode_eq_sensitive {root : Core.Node} (h : ∀ n ∈ root.walk, leafCase? n ≠ some true) :
    caseMode root = .sensitive := by
  have hnone : (root.walk.filterMap leafCase?).contains true = false := by
    rw [List.contains_eq_mem, decide_eq_false_iff_not, List.mem_filterMap]
    rintro ⟨n, hn, hcase⟩
    exact h n hn hcase
  simp only [caseMode, hnone, Bool.not_false, if_true]

/-- Where no leaf ignores case, a class is written without its case variants. -/
theorem run_writeNode_cls {w : Writing} (hw : w.mode = .sensitive) (k : Core.CharClass) (p : Progress)
    {text : Text} (h : classLeaf (w.classStyle false) k = .ok text) :
    (writeNode w (.cls k)).run p = .ok (text, { p with afterReference := false }) := by
  have hleaf : w.isCaselessLeaf (.cls k) = false := by
    simp [Writing.isCaselessLeaf, Writing.usesModifierGroups, hw]
  have hmode : (w.mode == .mixed) = false := by
    rw [hw]
    rfl
  rw [writeNode, writeLeaf, hleaf, hmode]
  show (leafText w p.afterReference false (.cls k)).run _ = _
  rw [leafText, Bool.false_and, h]
  rfl

/-- **A class is converted to a text that matches its members and nothing else.** -/
theorem matchesChar_of_class {extended : Bool} {source : List Char} {tree : Source.Node}
    (hread : Source.Node.ofText extended source = .ok tree) {cls : Source.CharClass}
    (hcls : cls ∈ tree.classes) (o : SetOptions) (hknown : cls.known o.flags o.strict)
    (ignoreCase : Bool) (w : Writing) (root : Core.Node) (hmode : w.mode = caseMode root)
    (hcase : ∀ n ∈ root.walk, leafCase? n ≠ some true) (p : Progress) :
    let g := classGrammar w.options.target.hasUnicodeSets
    ∃ k text next, lowerClass o ignoreCase cls = .ok k ∧
      (writeNode w (.cls k)).run p = .ok (text, next) ∧
      MatchesChar g text (cls.has o.flags) ∧
      ∃ node, Node.read? g false text = some node ∧ node.IsChar g (cls.has o.flags) := by
  intro g
  have hsensitive := hmode.trans (caseMode_eq_sensitive hcase)
  obtain ⟨k, hlower, hk, hhas⟩ :=
    has_lowerClass o ignoreCase cls (Source.ordered_of_ofText hread cls hcls) hknown
  obtain ⟨text, htext, hmatches⟩ := matchesChar_classLeaf (s := w.classStyle false) rfl k hk
  have hmembers : MatchesChar g text (cls.has o.flags) := hmatches.congr hhas
  exact ⟨k, text, _, hlower, run_writeNode_cls hsensitive k p htext, hmembers, hmembers.read? false⟩

/-- A complement of an intersection, with a set, a POSIX name and a class inside. -/
theorem matchesChar_of_class_example : ∃ tree cls k text next,
    Source.Node.ofText false "[^a-f\\p\x7bGreek\x7d&&[^\\d[:^space:]]é]".toList = .ok tree ∧
    tree.classes = [cls] ∧
    lowerClass ⟨{ asciiDigit := true }, true⟩ false cls = .ok k ∧
    (writeNode ⟨{ target := .es2018 }, .sensitive, false, .of (.char 'k')⟩ (.cls k)).run {}
      = .ok (text, next) ∧
    ∃ node, Node.read? .unicode false text = some node ∧
      node.IsChar .unicode (cls.has { asciiDigit := true }) := by
  obtain ⟨tree, hread, hknown⟩ : ∃ tree, Source.Node.ofText false
        "[^a-f\\p\x7bGreek\x7d&&[^\\d[:^space:]]é]".toList = .ok tree ∧
      tree.classes.map (·.known { asciiDigit := true } true) = [true] := by
    decide +kernel
  obtain ⟨cls, hcls, hnames⟩ := List.map_eq_singleton_iff.1 hknown
  obtain ⟨k, text, next, hlower, hwrite, -, hmatch⟩ := matchesChar_of_class hread
    (show cls ∈ tree.classes by simp [hcls]) ⟨{ asciiDigit := true }, true⟩ hnames false
    ⟨{ target := .es2018 }, .sensitive, false, .of (.char 'k')⟩ (.char 'k')
    (by decide +kernel) (by decide +kernel) {}
  exact ⟨tree, cls, k, text, next, hread, hcls, hlower, hwrite, hmatch⟩

end Diglot
