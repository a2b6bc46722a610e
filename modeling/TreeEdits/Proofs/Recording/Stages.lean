import TreeEdits.Files
import TreeEdits.Proofs.Recording.Parallel
import TreeEdits.Proofs.Script.Form

/-!
# TreeEdits.Proofs.Recording.Stages

Where a run over two files goes wrong. Each stage may fail on its own, whatever comes before it; of
all that fail the first decides what the run reports. The tree is done with before the script is
looked at.

* `Files.Holds`, `Files.Fails`: what reading a path gives, told from the files alone.
* `Stage.Fails`: a stage fails. `loadTree_eq_error_iff` and `loadScript_eq_error_iff` say which
  stages loading goes through.
* `eq_conflict_of_record`: all that a walk with a script can fail with.
* `recordFiles_stages`: the first stage that fails, and the codes.
-/

namespace TreeEdits

/-- The file at a path holds a text. -/
def Files.Holds (files : Files) (path text : String) : Prop :=
  ∃ bytes, files path = .ok bytes ∧ String.fromUTF8? bytes = some text

theorem Files.Holds.of_toUTF8 {files : Files} {path text : String}
    (h : files path = .ok text.toUTF8) : files.Holds path text :=
  ⟨text.toUTF8, h, dif_pos text.isValidUTF8⟩

/-- Why there is no text at a path: the file is missing, or it is there but cannot be read, or what
it holds is no text. -/
inductive Files.Fails (files : Files) (path : String) : Failure → Prop
  | missing : files path = .error .notFound → Fails files path (.fileNotFound path)
  | unreadable {reason : String} : files path = .error (.other reason) →
    Fails files path (.internal ("failed to read " ++ path ++ ": " ++ reason) none)
  | noText {bytes : ByteArray} : files path = .ok bytes → String.fromUTF8? bytes = none →
    Fails files path
      (.internal ("failed to read " ++ path ++ ": " ++ "stream did not contain valid UTF-8") none)

/-- The stages of a run over two files, in order. -/
inductive Stage where
  | readTree
  | parseTree
  | readScript
  | parseScript
  | checkScript
  | walk

namespace Stage

/-- The stages before a stage. -/
def before : Stage → List Stage
  | readTree => []
  | parseTree => [readTree]
  | readScript => [readTree, parseTree]
  | parseScript => [readTree, parseTree, readScript]
  | checkScript => [readTree, parseTree, readScript, parseScript]
  | walk => [readTree, parseTree, readScript, parseScript, checkScript]

/-- A stage fails with a failure. It needs what the stages that it builds on give, but nothing of
the other file. The check of a script fails for the first rule that is not apt. -/
inductive Fails (files : Files) (treePath scriptPath : String) (o : Options) :
    Stage → Failure → Prop
  | readTree {f : Failure} : files.Fails treePath f → Fails files treePath scriptPath o readTree f
  | parseTree {text : String} {e : ParseError} : files.Holds treePath text →
    Tree.ofText text = .error e → Fails files treePath scriptPath o parseTree (.ofParseError e)
  | readScript {f : Failure} : files.Fails scriptPath f →
    Fails files treePath scriptPath o readScript f
  | parseScript {text : String} {e : ParseError} : files.Holds scriptPath text →
    parse (Rule.readAll Json.depthLimit) text = .error e →
    Fails files treePath scriptPath o parseScript (.ofParseError e)
  | checkScript {text : String} {rules : List Rule} {i : Nat} {r : Rule} :
    files.Holds scriptPath text → parse (Rule.readAll Json.depthLimit) text = .ok rules →
    rules[i]? = some r → ¬r.Apt → (∀ j < i, ∀ q ∈ rules[j]?, q.Apt) →
    Fails files treePath scriptPath o checkScript (.invalidArguments
      ("rule " ++ toString i ++ " (" ++ r.action.name ++ " on '" ++ r.label ++ "') "
        ++ if r.node.isSome then "does not take a node" else "requires a node"))
  | walk {t : Tree} {s : Script} {f : Failure} : loadTree files treePath = .ok t →
    loadScript files scriptPath = .ok s → record t s o = .error f →
    Fails files treePath scriptPath o walk f

/-- The code that reading a path fails with. -/
def readCode : Except ReadError ByteArray → UInt8
  | .error .notFound => 3
  | _ => 10

/-- The code that a stage fails with. -/
def code (files : Files) (treePath scriptPath : String) : Stage → UInt8
  | readTree => readCode (files treePath)
  | parseTree => 2
  | readScript => readCode (files scriptPath)
  | parseScript => 2
  | checkScript => 2
  | walk => 4

end Stage

variable {files : Files} {path treePath scriptPath text : String} {o : Options} {f g : Failure}

/-! ## Reading -/

theorem readText_eq_ok_iff : readText files path = .ok text ↔ files.Holds path text := by
  constructor
  · intro h
    rw [readText] at h
    split at h
    · cases h
    · rename_i bytes hbytes
      split at h
      · cases h
      · rename_i htext
        cases h
        exact ⟨bytes, hbytes, htext⟩
  · rintro ⟨bytes, hbytes, htext⟩
    simp only [readText, hbytes, htext]

theorem readText_eq_error_iff : readText files path = .error f ↔ files.Fails path f := by
  constructor
  · intro h
    rw [readText] at h
    split at h
    · rename_i e he
      cases h
      cases e with
      | notFound => exact .missing he
      | other reason => exact .unreadable he
    · rename_i bytes hbytes
      split at h
      · rename_i hnone
        cases h
        exact .noText hbytes hnone
      · cases h
  · intro h
    cases h with
    | missing h => simp only [readText, h, Failure.ofReadError]
    | unreadable h => simp only [readText, h, Failure.ofReadError]
    | noText h hnone => simp only [readText, h, hnone, Failure.ofReadError]

theorem Files.Fails.not_holds (h : files.Fails path f) : ¬files.Holds path text := by
  intro htext
  rw [← readText_eq_ok_iff, readText_eq_error_iff.2 h] at htext
  cases htext

/-- Reading fails with code 3 if the file is missing, and otherwise with code 10. -/
theorem Files.Fails.code (h : files.Fails path f) :
    f.code.number = Stage.readCode (files path) := by
  cases h with
  | missing h => rw [h]; rfl
  | unreadable h => rw [h]; rfl
  | noText h _ => rw [h]; rfl

/-! ## The parts of a run -/

theorem loadTree_eq_error_iff (scriptPath : String) (o : Options) :
    loadTree files treePath = .error f ↔
      Stage.readTree.Fails files treePath scriptPath o f ∨
        Stage.parseTree.Fails files treePath scriptPath o f := by
  constructor
  · intro h
    rw [loadTree] at h
    split at h
    · rename_i hread
      cases h
      exact .inl (.readTree (readText_eq_error_iff.1 hread))
    · rename_i text hread
      split at h
      · rename_i hparse
        cases h
        exact .inr (.parseTree (readText_eq_ok_iff.1 hread) hparse)
      · cases h
  · rintro (h | h)
    · cases h with
      | readTree h => simp only [loadTree, readText_eq_error_iff.2 h]
    · cases h with
      | parseTree htext hparse => simp only [loadTree, readText_eq_ok_iff.2 htext, hparse]

theorem loadScript_eq_error_iff (treePath : String) (o : Options) :
    loadScript files scriptPath = .error f ↔
      Stage.readScript.Fails files treePath scriptPath o f ∨
        Stage.parseScript.Fails files treePath scriptPath o f ∨
        Stage.checkScript.Fails files treePath scriptPath o f := by
  constructor
  · intro h
    rw [loadScript] at h
    split at h
    · rename_i hread
      cases h
      exact .inl (.readScript (readText_eq_error_iff.1 hread))
    · rename_i text hread
      have htext := readText_eq_ok_iff.1 hread
      rw [Script.ofText] at h
      split at h
      · rename_i hparse
        cases h
        exact .inr (.inl (.parseScript htext hparse))
      · rename_i hparse
        obtain ⟨i, r, hr, hunfit, hbefore, rfl⟩ := Script.ofRules_eq_error_iff.1 h
        rw [Rule.misfit_eq hunfit]
        exact .inr (.inr (.checkScript htext hparse hr hunfit hbefore))
  · rintro (h | h | h)
    · cases h with
      | readScript h => simp only [loadScript, readText_eq_error_iff.2 h]
    · cases h with
      | parseScript htext hparse =>
        simp only [loadScript, readText_eq_ok_iff.2 htext, Script.ofText, hparse]
    · cases h with
      | checkScript htext hparse hr hunfit hbefore =>
        have hcheck := Script.ofRules_eq_error_iff.2 ⟨_, _, hr, hunfit, hbefore, rfl⟩
        rw [Rule.misfit_eq hunfit] at hcheck
        simp only [loadScript, readText_eq_ok_iff.2 htext, Script.ofText, hparse, hcheck]

/-- All that a walk with a script can fail with is a conflict, and only side by side. -/
theorem eq_conflict_of_record {t : Tree} {s : Script} (h : record t s o = .error f) :
    o.mode = .parallel ∧ ∃ a, f = .editConflict a (EditError.conflict a).message := by
  obtain ⟨mode, hint⟩ := o
  cases mode with
  | sequential =>
    rw [record_eq_live] at h
    cases h
  | parallel =>
    by_cases hclash : ∃ p ∈ s.live t, s.Clashes p
    · obtain ⟨ps, p, qs, hlive, hp, hps⟩ := Script.exists_first_clash hclash
      rw [record_parallel_of_clash t s hint hlive hp hps] at h
      cases h
      exact ⟨rfl, _, rfl⟩
    · have hnone : ∀ p ∈ s.live t, ¬s.Clashes p := fun p hp hc => hclash ⟨p, hp, hc⟩
      rw [record_parallel_eq t s hint hnone] at h
      cases h

theorem Stage.Fails.code {stage : Stage} (h : stage.Fails files treePath scriptPath o f) :
    f.code.number = stage.code files treePath scriptPath := by
  cases h with
  | readTree h => exact Files.Fails.code h
  | parseTree _ _ => rfl
  | readScript h => exact Files.Fails.code h
  | parseScript _ _ => rfl
  | checkScript _ _ _ _ _ => rfl
  | walk _ _ hrecord =>
    obtain ⟨-, a, rfl⟩ := eq_conflict_of_record hrecord
    rfl

/-! ## The first stage that fails -/

theorem loadTree_eq_ok_iff : (∃ t, loadTree files treePath = .ok t) ↔
    ∀ stage ∈ [Stage.readTree, .parseTree], ∀ g, ¬stage.Fails files treePath scriptPath o g := by
  have herror (g : Failure) : loadTree files treePath = .error g ↔ _ :=
    loadTree_eq_error_iff scriptPath o
  constructor
  · rintro ⟨t, ht⟩ stage hstage g hg
    have hfailed : loadTree files treePath = .error g := by
      rcases List.mem_pair.1 hstage with rfl | rfl
      · exact (herror g).2 (.inl hg)
      · exact (herror g).2 (.inr hg)
    rw [ht] at hfailed
    cases hfailed
  · intro h
    cases ht : loadTree files treePath with
    | ok t => exact ⟨t, rfl⟩
    | error g =>
      rcases (herror g).1 ht with hg | hg
      · exact absurd hg (h _ (.head _) g)
      · exact absurd hg (h _ (.tail _ (.head _)) g)

theorem script_passes {s : Script} (hs : loadScript files scriptPath = .ok s) :
    ∀ stage ∈ [Stage.readScript, .parseScript, .checkScript],
      ∀ g, ¬stage.Fails files treePath scriptPath o g := by
  intro stage hstage g hg
  have hfailed : loadScript files scriptPath = .error g := by
    refine (loadScript_eq_error_iff treePath o).2 ?_
    simp only [List.mem_cons, List.not_mem_nil, or_false] at hstage
    rcases hstage with rfl | rfl | rfl
    · exact .inl hg
    · exact .inr (.inl hg)
    · exact .inr (.inr hg)
  rw [hs] at hfailed
  cases hfailed

namespace Stage

/-- The stage fails with the failure and no stage before it fails. -/
structure FailsFirst (files : Files) (treePath scriptPath : String) (o : Options) (stage : Stage)
    (f : Failure) : Prop where
  fails : stage.Fails files treePath scriptPath o f
  first : ∀ earlier ∈ stage.before, ∀ g, ¬earlier.Fails files treePath scriptPath o g

theorem failsFirst_readTree (h : readTree.Fails files treePath scriptPath o f) :
    FailsFirst files treePath scriptPath o readTree f :=
  ⟨h, fun _ he => absurd he List.not_mem_nil⟩

theorem failsFirst_parseTree (h : parseTree.Fails files treePath scriptPath o f) :
    FailsFirst files treePath scriptPath o parseTree f := by
  refine ⟨h, List.forall_mem_singleton.2 fun g hg => ?_⟩
  cases h with
  | parseTree htext _ =>
    cases hg with
    | readTree hg => exact hg.not_holds htext

theorem exists_first_of_loadTree (h : loadTree files treePath = .error f) :
    ∃ stage, FailsFirst files treePath scriptPath o stage f := by
  rcases (loadTree_eq_error_iff scriptPath o).1 h with hread | hparse
  · exact ⟨readTree, failsFirst_readTree hread⟩
  · exact ⟨parseTree, failsFirst_parseTree hparse⟩

section

variable {t : Tree} (ht : loadTree files treePath = .ok t)

include ht

theorem failsFirst_readScript (h : readScript.Fails files treePath scriptPath o f) :
    FailsFirst files treePath scriptPath o readScript f :=
  ⟨h, loadTree_eq_ok_iff.1 ⟨t, ht⟩⟩

theorem failsFirst_parseScript (h : parseScript.Fails files treePath scriptPath o f) :
    FailsFirst files treePath scriptPath o parseScript f := by
  refine ⟨h, List.forall_mem_append.2 ⟨loadTree_eq_ok_iff.1 ⟨t, ht⟩, ?_⟩⟩
  cases h with
  | parseScript htext _ =>
    refine List.forall_mem_singleton.2 fun g hg => ?_
    cases hg with
    | readScript hg => exact hg.not_holds htext

theorem failsFirst_checkScript (h : checkScript.Fails files treePath scriptPath o f) :
    FailsFirst files treePath scriptPath o checkScript f := by
  refine ⟨h, List.forall_mem_append.2 ⟨loadTree_eq_ok_iff.1 ⟨t, ht⟩, ?_⟩⟩
  cases h with
  | checkScript htext hrules _ _ _ =>
    refine List.forall_mem_cons.2 ⟨fun g hg => ?_, List.forall_mem_singleton.2 fun g hg => ?_⟩
    · cases hg with
      | readScript hg => exact hg.not_holds htext
    · cases hg with
      | parseScript htext' hparse =>
        rw [← readText_eq_ok_iff] at htext htext'
        rw [htext] at htext'
        cases htext'
        rw [hrules] at hparse
        cases hparse

theorem exists_first_of_loadScript (h : loadScript files scriptPath = .error f) :
    ∃ stage, FailsFirst files treePath scriptPath o stage f := by
  rcases (loadScript_eq_error_iff treePath o).1 h with hread | hparse | hcheck
  · exact ⟨readScript, failsFirst_readScript ht hread⟩
  · exact ⟨parseScript, failsFirst_parseScript ht hparse⟩
  · exact ⟨checkScript, failsFirst_checkScript ht hcheck⟩

end

end Stage

theorem recordFiles_of_loadTree_error (h : loadTree files treePath = .error f) :
    recordFiles files treePath scriptPath o = .error f := by
  simp only [recordFiles, h]

theorem recordFiles_of_loadScript_error {t : Tree} (ht : loadTree files treePath = .ok t)
    (h : loadScript files scriptPath = .error f) :
    recordFiles files treePath scriptPath o = .error f := by
  simp only [recordFiles, ht, h]

theorem recordFiles_of_loaded {t : Tree} {s : Script} (ht : loadTree files treePath = .ok t)
    (hs : loadScript files scriptPath = .ok s) :
    recordFiles files treePath scriptPath o = record t s o := by
  simp only [recordFiles, ht, hs]

theorem recordFiles_eq_error_iff : recordFiles files treePath scriptPath o = .error f ↔
    ∃ stage, Stage.FailsFirst files treePath scriptPath o stage f := by
  constructor
  · intro h
    cases ht : loadTree files treePath with
    | error g =>
      rw [recordFiles_of_loadTree_error ht] at h
      cases h
      exact Stage.exists_first_of_loadTree ht
    | ok t =>
      cases hs : loadScript files scriptPath with
      | error g =>
        rw [recordFiles_of_loadScript_error ht hs] at h
        cases h
        exact Stage.exists_first_of_loadScript ht hs
      | ok s =>
        rw [recordFiles_of_loaded ht hs] at h
        exact ⟨.walk, .walk ht hs h,
          List.forall_mem_append.2 ⟨loadTree_eq_ok_iff.1 ⟨t, ht⟩, script_passes hs⟩⟩
  · rintro ⟨stage, hfails, hfirst⟩
    -- Of the stages before it, those of the tree matter: they say that there is one.
    cases stage with
    | readTree => exact recordFiles_of_loadTree_error ((loadTree_eq_error_iff _ _).2 (.inl hfails))
    | parseTree => exact recordFiles_of_loadTree_error ((loadTree_eq_error_iff _ _).2 (.inr hfails))
    | readScript =>
      obtain ⟨t, ht⟩ := loadTree_eq_ok_iff.2 hfirst
      exact recordFiles_of_loadScript_error ht ((loadScript_eq_error_iff _ _).2 (.inl hfails))
    | parseScript =>
      obtain ⟨t, ht⟩ := loadTree_eq_ok_iff.2 (List.forall_mem_append.1 hfirst).1
      refine recordFiles_of_loadScript_error ht ?_
      exact (loadScript_eq_error_iff _ _).2 (.inr (.inl hfails))
    | checkScript =>
      obtain ⟨t, ht⟩ := loadTree_eq_ok_iff.2 (List.forall_mem_append.1 hfirst).1
      refine recordFiles_of_loadScript_error ht ?_
      exact (loadScript_eq_error_iff _ _).2 (.inr (.inr hfails))
    | walk =>
      cases hfails with
      | walk ht hs h => rw [recordFiles_of_loaded ht hs, h]

/-- A run over two files fails with what the first stage fails with that does fail. A failure to
load the tree is that of every run over the same tree file, whatever is at the path of the script,
in either mode. A stage that reads fails with code 3 exactly if its file is missing, and otherwise
with code 10; those that parse and check fail with code 2. Once both are loaded the run is that over
the tree and the script, which can fail only for a conflict side by side, with code 4. -/
theorem recordFiles_stages (files : Files) (treePath scriptPath : String) (o : Options) :
    (∀ f, recordFiles files treePath scriptPath o = .error f ↔
      ∃ stage, Stage.FailsFirst files treePath scriptPath o stage f) ∧
    (∀ f, loadTree files treePath = .error f →
      ∀ (others : Files) (scriptPath' : String) (o' : Options), others treePath = files treePath →
        recordFiles others treePath scriptPath' o' = .error f) ∧
    (∀ stage f, Stage.Fails files treePath scriptPath o stage f →
      f.code.number = stage.code files treePath scriptPath) ∧
    (∀ path f, files.Fails path f → (f = .fileNotFound path ↔ files path = .error .notFound) ∧
      (f.code.number = 3 ↔ files path = .error .notFound) ∧
      (f.code.number = 10 ↔ files path ≠ .error .notFound)) ∧
    (∀ t s, loadTree files treePath = .ok t → loadScript files scriptPath = .ok s →
      recordFiles files treePath scriptPath o = record t s o) ∧
    (∀ t s f, record t s o = .error f →
      o.mode = .parallel ∧ f.code.number = 4 ∧
        ∃ a, f = .editConflict a (EditError.conflict a).message) := by
  refine ⟨fun f => recordFiles_eq_error_iff, ?_, fun stage f => Stage.Fails.code, ?_,
    fun t s => recordFiles_of_loaded, ?_⟩
  · intro f h others scriptPath' o' hsame
    refine recordFiles_of_loadTree_error ?_
    rw [← h]
    simp only [loadTree, readText, hsame]
  · intro path f h
    cases h with
    | missing h => simp [h, Failure.code, ErrorCode.number]
    | unreadable h => simp [h, Failure.code, ErrorCode.number]
    | noText h _ => simp [h, Failure.code, ErrorCode.number]
  · intro t s f h
    obtain ⟨hmode, a, rfl⟩ := eq_conflict_of_record h
    exact ⟨hmode, rfl, a, rfl⟩

/-- The tree is no JSON and the script is missing: the run fails as it would with any script. With a
tree and a script of which two rules are not apt, it fails for the first of them. -/
theorem recordFiles_stages_bothWrong :
    let files : Files := fun path => if path = "tree" then .ok "[".toUTF8 else .error .notFound
    let rules : List Rule :=
      [⟨"a", .delete, none⟩, ⟨"b", .replace, none⟩, ⟨"b", .insertAfter, none⟩]
    let unfit : Files := fun path =>
      if path = "tree" then .ok (Tree.leaf "a").toJson.compact.toUTF8
      else .ok (Json.arr (rules.map Rule.toJson)).compact.toUTF8
    (∃ e, Tree.ofText "[" = .error e ∧ ∀ o,
      Stage.readScript.Fails files "tree" "script" o (.fileNotFound "script") ∧
      recordFiles files "tree" "script" o = .error (.ofParseError e) ∧
      ∀ bytes o', recordFiles (fun path => if path = "tree" then .ok "[".toUTF8 else .ok bytes)
        "tree" "script" o' = .error (.ofParseError e)) ∧
    ∀ o, recordFiles unfit "tree" "script" o =
      .error (.invalidArguments "rule 1 (replace on 'b') requires a node") := by
  intro files rules unfit
  have htext : files.Holds "tree" "[" := .of_toUTF8 rfl
  refine ⟨⟨_, rfl, fun o => ⟨.readScript (.missing rfl), ?_, ?_⟩⟩, fun o => ?_⟩
  · refine ((recordFiles_stages files "tree" "script" o).1 _).2 ⟨.parseTree, ?_⟩
    exact Stage.failsFirst_parseTree (.parseTree htext rfl)
  · intro bytes o'
    refine (recordFiles_stages files "tree" "script" o).2.1 _ ?_ _ _ o' rfl
    exact (loadTree_eq_error_iff "script" o).2 (.inr (.parseTree htext rfl))
  · have htext : unfit.Holds "tree" (Tree.leaf "a").toJson.compact := .of_toUTF8 (if_pos rfl)
    have hleaf : Tree.ofText (Tree.leaf "a").toJson.compact = .ok (.leaf "a") :=
      Tree.ofText_eq_ok (by decide) (Json.laidOut_compact _)
    have htree : loadTree unfit "tree" = .ok (.leaf "a") := by
      rw [loadTree, readText_eq_ok_iff.2 htext]
      simp only [hleaf]
    have hscript : unfit.Holds "script" (Json.arr (rules.map Rule.toJson)).compact :=
      .of_toUTF8 (if_neg (by decide))
    have hreads : Reads (Rule.readAll Json.depthLimit)
        (Json.arr (rules.map Rule.toJson)).tokens rules := Rule.readsAll (by decide)
    have hsecond : rules[1]? = some ⟨"b", .replace, none⟩ := rfl
    refine ((recordFiles_stages unfit "tree" "script" o).1 _).2 ⟨.checkScript, ?_⟩
    refine Stage.failsFirst_checkScript htree ?_
    exact .checkScript hscript (hreads.parse (Json.laidOut_compact _)) hsecond (by decide)
      (by decide)

end TreeEdits
