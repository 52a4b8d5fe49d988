import DeploymentRecords.Proofs.Overwriting
import DeploymentRecords.Proofs.PrintedTree
import DeploymentRecords.Proofs.Rebuilding
import DeploymentRecords.Proofs.StatementReading

/-! # Documents read anew

A sound document is read back from its tidy text just if it is ordered, and then it means what it
meant with the ends of its lines stripped. -/

namespace DeploymentRecords.Toml

open Member

theorem Statement.Printable.path_ne_nil {st : Statement} (h : st.Printable) :
    st.settledShape.path ≠ [] := by
  cases st with
  | header array path around => exact fun hnil => h.1 (List.map_eq_nil_iff.mp hnil)
  | assign path e => exact fun hnil => h.1 (List.map_eq_nil_iff.mp hnil)

namespace Document

/-- The statements of the document build its tree in the order in which they are written. -/
def Ordered (doc : Document) : Prop := EntriesOrdered 0 0 doc.root

instance (doc : Document) : Decidable doc.Ordered := decidableEntriesOrdered 0 0 doc.root

structure Sound (doc : Document) : Prop where
  regular : ∃ hi, doc.root.Regular 0 hi
  entries : doc.root.Sound 0 0
  trail : Statement.Tail doc.trail

theorem sound_of_read? {s : Text} {doc : Document} (h : read? s = some doc) : doc.Sound := by
  obtain ⟨sts, hsts, htrail, hroot⟩ := kept_of_read? h
  obtain ⟨hregular, hentries⟩ := sound_ofStatements? hsts hroot
  exact ⟨hregular, hentries, htrail⟩

theorem Sound.update? {doc new : Document} (hdoc : doc.Sound) {table : Text} {path : List Text}
    {fields : List (Text × Text)} (h : doc.update? table path fields = some new)
    (hshort : path.length + 2 < Key.maxPath) : new.Sound := by
  obtain ⟨hi, hregular⟩ := hdoc.regular
  obtain ⟨hregular', hentries, htrail⟩ := update?_kept h hregular hdoc.entries hshort
  exact ⟨⟨hi, hregular'⟩, hentries, htrail ▸ hdoc.trail⟩

theorem Sound.rebuilt {doc : Document} (hdoc : doc.Sound) : EntriesRebuilt 0 0 doc.root := by
  obtain ⟨hi, hregular⟩ := hdoc.regular
  exact entries_rebuilt hregular.nodup 0 0 fun p hp held last =>
    Regular.rebuilt (hregular.members p hp) held last

/-- What is read from the tidy text of a document. -/
theorem reread {doc : Document} (hdoc : doc.Sound) : Yields doc.Ordered (read? (Text.tidy doc.text))
    fun new => (Value.table new.entries).canonical = doc.settledValue.canonical := by
  have hprintable := statements_printable hdoc.entries
  obtain ⟨sts, trail, hshapes, hread⟩ := read?_tidy hprintable hdoc.trail
  have hpath : ∀ st ∈ sts, st.shape.path ≠ [] := by
    intro st hst
    have hmem : st.shape ∈ doc.statements.map Statement.settledShape :=
      hshapes ▸ List.mem_map_of_mem hst
    obtain ⟨st', hst', hshape⟩ := List.mem_map.mp hmem
    exact hshape ▸ (hprintable st' hst').path_ne_nil
  have htree := ofStatements?_outlines hpath
  rw [hshapes, opsOf_statements] at htree
  have htext : read? (Text.tidy doc.text) = (ofStatements? sts).map fun root => ⟨root, trail⟩ := hread
  rcases hdoc.rebuilt with ⟨hordered, t, ht, hplain⟩ | ⟨hordered, hnone⟩
  · rw [ht] at htree
    obtain ⟨root, hroot, rfl⟩ := Option.map_eq_some_iff.mp htree
    rw [hroot] at htext
    refine Or.inl ⟨hordered, _, htext, ?_⟩
    obtain ⟨hi, hregular⟩ := (sound_of_read? htext).regular
    obtain ⟨hi', hregular'⟩ := hdoc.regular
    rw [Document.entries, entryValues_eq]
    exact canonical_determined (fun p _ => determined p.2) hregular hregular' hplain
  · rw [hnone] at htree
    rw [Option.map_eq_none_iff.mp htree] at htext
    exact Or.inr ⟨hordered, htext⟩

end Document

end DeploymentRecords.Toml
