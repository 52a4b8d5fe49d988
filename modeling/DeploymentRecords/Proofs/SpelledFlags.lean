import DeploymentRecords.Proofs.RepeatedUpdate

/-! # Flags and their fields

Known flags, each given once, reach the fields of their own names: whatever their order and spelling, the
deployment file is updated with them in the order of the fields. -/

namespace DeploymentRecords.Command.Update

open Files

variable {values values' : List (Text × Text)}

/-- The order of the flags does not reach the fields. -/
theorem ordered_congr (hvalues : (values.map Prod.fst).Nodup) (hperm : values.Perm values') :
    ordered values = ordered values' := by
  have hvalues' : (values'.map Prod.fst).Nodup := (hperm.map Prod.fst).nodup_iff.mp hvalues
  have hlookup : ∀ field, values.lookup field = values'.lookup field := by
    intro field
    refine Option.ext fun value => ⟨fun h => ?_, fun h => ?_⟩
    · exact AddressTable.lookup_of_mem hvalues' (hperm.mem_iff.mp (AddressTable.mem_of_lookup h))
    · exact AddressTable.lookup_of_mem hvalues (hperm.mem_iff.mpr (AddressTable.mem_of_lookup h))
  simp only [ordered_eq, hlookup]

theorem command_congr {chainKey : Option ByteArray} {args args' : List ByteArray}
    (h : Request.read settableFields args = .flags values)
    (h' : Request.read settableFields args' = .flags values') (heq : ordered values = ordered values')
    (tree : Tree) : command chainKey args tree = command chainKey args' tree := by
  rw [command, command, flags_eq, h, h']
  dsimp only
  rw [run, run, heq]

/-- Of known flags, each given once and in whatever order and spelling, the values are those of the fields of
these names and no others, in the order of the fields. The run updates the file with them, so that it tells
all of them and the file holds the changed document, or it fails as the update does; and so it does not
depend on the order and the spelling. Arguments are otherwise a request for help behind such flags, or faulty:
then they are misuse, and no file is touched. -/
theorem command_reads_flags (chainKey : Option ByteArray) (tree : Tree) :
    (∀ pairs args, Request.Admissible settableFields pairs → Spelled pairs args →
      ∃ values, Request.read flags args = .flags values ∧ (ordered values).Perm pairs ∧
        ((ordered values).map Prod.fst).Sublist settableFields ∧
        Ran (networkOf chainKey) (ordered values) tree (command chainKey args tree) ∧
        ((command chainKey args tree).status = Outcome.success →
          Completed (networkOf chainKey) (ordered values) tree (command chainKey args tree))) ∧
    (∀ pairs pairs' args args', Request.Admissible settableFields pairs → pairs.Perm pairs' →
      Spelled pairs args → Spelled pairs' args' →
      command chainKey args tree = command chainKey args' tree) ∧
    (∀ args, Complete args ∨ Helped args ∨ Faulty args) ∧
    (∀ args, Request.read flags args = .misuse ↔ Faulty args) ∧
    ∀ args, Faulty args → command chainKey args tree = ⟨Outcome.misuse, [], misuse, tree⟩ := by
  rw [flags_eq]
  refine ⟨?_, ?_, complete_or_helped_or_faulty, fun args => ⟨faulty_of_read, read_of_faulty⟩,
    fun args hfaulty => command_misuse (read_of_faulty hfaulty) tree⟩
  · intro pairs args hadmissible hspelled
    have hread := read_spelled hadmissible hspelled
    have hperm := List.reverse_perm pairs
    have hran := command_flags chainKey hread tree
    refine ⟨_, hread, (ordered_perm (hadmissible.perm hperm.symm)).trans hperm, ordered_sublist, hran,
      fun hsuccess => ?_⟩
    exact hran.completed_or_refused.resolve_right fun hrefused => hrefused.1.status hsuccess
  · intro pairs pairs' args args' hadmissible hperm hspelled hspelled'
    have hreversed : pairs.reverse.Perm pairs'.reverse :=
      (List.reverse_perm pairs).trans (hperm.trans (List.reverse_perm pairs').symm)
    exact command_congr (read_spelled hadmissible hspelled) (read_spelled (hadmissible.perm hperm) hspelled')
      (ordered_congr (hadmissible.perm (List.reverse_perm pairs).symm).nodup hreversed) tree

def mixedPairs : List (Text × Text) :=
  [("zkc".toList, "a=b".toList), ("admin".toList, []), ("verifier".toList, "-".toList)]

def mixedArgs : List ByteArray :=
  ["--zkc=a=b", "--admin", "", "--verifier", "-"].map fun arg => Tree.encode arg.toList

def movedArgs : List ByteArray :=
  ["--verifier=-", "--zkc", "a=b", "--admin="].map fun arg => Tree.encode arg.toList

def mixedFields : List (Text × Text) :=
  [("admin".toList, []), ("verifier".toList, "-".toList), ("zkc".toList, "a=b".toList)]

def anvilText : Text := "[deployment.anvil]\nzkc = \"0x1\" # old\n".toList

def mixedReport : Text :=
  ("Updated 'admin' to '' in [deployment.anvil]\n" ++
    "Updated 'verifier' to '-' in [deployment.anvil]\n" ++
    "Updated 'zkc' to 'a=b' in [deployment.anvil]\n" ++
    "contracts/deployment.toml updated successfully.\n").toList

/-- Values that are empty, a hyphen or hold an equals sign reach a file, in two orders and spellings of the
flags; and a flag given twice reaches none. -/
theorem command_reads_mixedArgs :
    let tree := DeploymentFile.workplace anvilText
    (∃ new, command none mixedArgs tree = ⟨Outcome.success, mixedReport, [], new⟩ ∧
      new.read Plan.deploymentPath = .ok
        "[deployment.anvil]\nzkc = \"a=b\" # old\nadmin = \"\"\nverifier = \"-\"\n".toList) ∧
    command none mixedArgs tree = command none movedArgs tree ∧
    command none (mixedArgs ++ [Tree.encode "--zkc=".toList]) tree = ⟨Outcome.misuse, [], misuse, tree⟩ := by
  have hmixed : Spelled mixedPairs mixedArgs :=
    .joined _ _ (.separate _ (by simp) (.separate _ (by simp) .nil))
  have hmoved : Spelled [("verifier".toList, "-".toList), ("zkc".toList, "a=b".toList), ("admin".toList, [])]
      movedArgs :=
    .joined _ _ (.separate _ (by simp) (.joined _ _ .nil))
  have hadmissible : Request.Admissible settableFields mixedPairs := ⟨by decide, by decide⟩
  have hbody : Body "zkc".toList (some []) "zkc=".toList := .joined (by decide)
  have hfaulty : Faulty (mixedArgs ++ [Tree.encode "--zkc=".toList]) :=
    ⟨mixedPairs, mixedArgs, _, rfl, hmixed, hadmissible, .repeated [] hbody (by decide)⟩
  obtain ⟨hflags, hsame, -, -, hmisuse⟩ := command_reads_flags none (DeploymentFile.workplace anvilText)
  refine ⟨?_, hsame _ _ _ _ hadmissible (by decide) hmixed hmoved, hmisuse _ hfaulty⟩
  obtain ⟨values, hread, -, -, hran, -⟩ := hflags _ _ hadmissible hmixed
  -- the flags are read last first, and put into the order of the fields
  have hvalues : values = mixedPairs.reverse := by
    rw [flags_eq, read_spelled hadmissible hmixed] at hread
    exact (Request.flags.inj hread).symm
  have hordered : ordered values = mixedFields := by
    rw [hvalues]
    decide
  have hnetwork : networkOf none = "anvil".toList := rfl
  have htold : told "anvil".toList mixedFields = mixedReport := by decide +kernel
  rw [hordered, hnetwork] at hran
  obtain ⟨new, document, hupdate, hsaved, htext⟩ := DeploymentFile.exists_update anvilText "anvil".toList
    mixedFields (fun document => decide (Text.tidy document.text =
      "[deployment.anvil]\nzkc = \"a=b\" # old\nadmin = \"\"\nverifier = \"-\"\n".toList)) (by decide +kernel)
  rw [of_decide_eq_true htext] at hsaved
  generalize command none mixedArgs (DeploymentFile.workplace anvilText) = outcome at hran
  cases hran with
  | failed h =>
    rw [hupdate] at h
    cases h
  | written h =>
    rw [hupdate] at h
    obtain ⟨-, rfl⟩ := Prod.mk.inj (Except.ok.inj h)
    exact ⟨_, by rw [htold], hsaved⟩

end DeploymentRecords.Command.Update
