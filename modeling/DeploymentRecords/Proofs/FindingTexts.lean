import DeploymentRecords.Proofs.PrintedAudit

/-! # What the text of a finding tells

The text of an absence tells the network, the field and the record that lacks it. The text of a conflict
tells the network, the field, both values and whether the other record is the documentation, but not which
source file it is. In the standard plan two source files list the tokens of the same networks. -/

namespace DeploymentRecords

open Files Toml

namespace Record

variable (subject : Subject)

def bracket : Record → Text
  | .deployments _ => "deployment.".toList ++ subject.network
  | _ => subject.network

def word : Record → Text
  | .deployments _ => subject.key
  | _ => subject.name

def place : Record → Text
  | .deployments file => file
  | .source path => path
  | .documentation header => "documentation section '".toList ++ header ++ "'".toList

end Record

namespace Finding

variable {subject other : Subject} {record another : Record} {x y x' y' : Text}

theorem append_bracketed (network word inside rest : Text) :
    network ++ ("] ".toList ++ (word ++ (' ' :: inside ++ rest))) =
      network ++ ']' :: ' ' :: (word ++ ' ' :: (inside ++ rest)) := by
  have hclose : "] ".toList = [']', ' '] := rfl
  rw [hclose]
  rfl

theorem text_absent (subject : Subject) (record : Record) : (absent subject record).text =
    mark ++ (" Missing [".toList ++ (record.bracket subject ++ ']' :: ' ' ::
      (record.word subject ++ ' ' :: ("in ".toList ++ record.place)))) := by
  have hin : " in ".toList = ' ' :: "in ".toList := rfl
  rw [← append_bracketed]
  cases record with
  | deployments file =>
    have hopen : " Missing [deployment.".toList = " Missing [".toList ++ "deployment.".toList := by decide
    show _ = mark ++ (" Missing [".toList ++ ("deployment.".toList ++ subject.network ++ ("] ".toList ++
      (subject.key ++ (' ' :: "in ".toList ++ file)))))
    simp only [text, hin, hopen, List.append_assoc]
  | source path =>
    show _ = mark ++ (" Missing [".toList ++ (subject.network ++ ("] ".toList ++
      (subject.name ++ (' ' :: "in ".toList ++ path)))))
    simp only [text, hin, List.append_assoc]
  | documentation header =>
    have hsection : " in documentation section '".toList =
      ' ' :: "in ".toList ++ "documentation section '".toList := by decide
    show _ = mark ++ (" Missing [".toList ++ (subject.network ++ ("] ".toList ++ (subject.name ++
      (' ' :: "in ".toList ++ ("documentation section '".toList ++ header ++ "'".toList))))))
    simp only [text, hsection, List.append_assoc]

theorem text_conflict (subject : Subject) (record : Record) (x y : Text) :
    (conflict subject record x y).text =
      mark ++ (" Mismatch [".toList ++ (subject.network ++ ']' :: ' ' :: (subject.key ++ ' ' ::
        ("between TOML and ".toList ++ (record.against ++ (":\n  TOML: ".toList ++
          (x ++ ("\n  ".toList ++ (record.label ++ (": ".toList ++ y)))))))))) := by
  have hbetween : " between TOML and ".toList = ' ' :: "between TOML and ".toList := rfl
  rw [← append_bracketed]
  simp only [text, hbetween, List.append_assoc]

/-- Texts that begin differently are different. -/
theorem append_ne_append {s s' t t' : Text} (n : Nat) (h : n ≤ s.length) (h' : n ≤ s'.length)
    (hne : s.take n ≠ s'.take n) : s ++ t ≠ s' ++ t' := by
  intro he
  have htake := congrArg (List.take n) he
  rw [List.take_append_of_le_length h, List.take_append_of_le_length h'] at htake
  exact hne htake

theorem text_absent_ne_conflict : (absent subject record).text ≠ (conflict other another x y).text := by
  rw [text_absent, text_conflict, ← List.append_assoc mark, ← List.append_assoc mark]
  exact append_ne_append 6 (by decide) (by decide) (by decide)

structure Legible (subject : Subject) : Prop where
  network : ']' ∉ subject.network
  key : ' ' ∉ subject.key
  name : ' ' ∉ subject.name

theorem Legible.bracket (h : Legible subject) (record : Record) : ']' ∉ record.bracket subject := by
  cases record with
  | deployments file =>
    have hstart : ']' ∉ "deployment.".toList := by decide
    exact fun hmem => (List.mem_append.mp hmem).elim hstart h.network
  | source path => exact h.network
  | documentation header => exact h.network

theorem Legible.word (h : Legible subject) (record : Record) : ' ' ∉ record.word subject := by
  cases record with
  | deployments file => exact h.key
  | source path => exact h.name
  | documentation header => exact h.name

theorem split_at {c : Char} {s s' t t' : Text} (h : c ∉ s) (h' : c ∉ s') (he : s ++ c :: t = s' ++ c :: t') :
    s = s' ∧ t = t' := by
  have hlength : ∀ {s : Text} (t : Text), c ∉ s → (s ++ c :: t).idxOf c = s.length := by
    intro s t h
    rw [List.idxOf_append_of_notMem h, List.idxOf_cons_self, Nat.add_zero]
  have hlengths : s.length = s'.length := by rw [← hlength t h, he, hlength t' h']
  obtain ⟨hs, ht⟩ := List.append_inj he hlengths
  exact ⟨hs, (List.cons.inj ht).2⟩

/-- Brackets that hold no closing bracket and a word without spaces are read back. -/
theorem bracketed_inj {network network' word word' s s' : Text} (hnetwork : ']' ∉ network)
    (hnetwork' : ']' ∉ network') (hword : ' ' ∉ word) (hword' : ' ' ∉ word')
    (h : network ++ ']' :: ' ' :: (word ++ ' ' :: s) = network' ++ ']' :: ' ' :: (word' ++ ' ' :: s')) :
    network = network' ∧ word = word' ∧ s = s' := by
  obtain ⟨rfl, hbehind⟩ := split_at hnetwork hnetwork' h
  obtain ⟨rfl, rfl⟩ := split_at hword hword' (List.cons.inj hbehind).2
  exact ⟨rfl, rfl, rfl⟩

theorem text_absent_inj (h : Legible subject) (h' : Legible other)
    (htext : (absent subject record).text = (absent other another).text) :
    record.bracket subject = another.bracket other ∧ record.word subject = another.word other ∧
      record.place = another.place := by
  rw [text_absent, text_absent] at htext
  have hrest := List.append_cancel_left (List.append_cancel_left htext)
  obtain ⟨hbracket, hword, hplace⟩ :=
    bracketed_inj (h.bracket record) (h'.bracket another) (h.word record) (h'.word another) hrest
  exact ⟨hbracket, hword, List.append_cancel_left hplace⟩

theorem against_eq (record : Record) :
    record.against = bif record.isDocumentation then "documentation".toList else "RS".toList := by
  cases record <;> rfl

theorem label_eq (record : Record) :
    record.label = bif record.isDocumentation then "DOCS".toList else "RS  ".toList := by
  cases record <;> rfl

/-- The documentation and a source file are called by words that begin differently. -/
theorem isDocumentation_of_against {s s' : Text} (h : record.against ++ s = another.against ++ s') :
    record.isDocumentation = another.isDocumentation := by
  have hne : ∀ t t' : Text, "documentation".toList ++ t ≠ "RS".toList ++ t' :=
    fun t t' => append_ne_append 1 (by decide) (by decide) (by decide)
  rw [against_eq record, against_eq another] at h
  cases hrecord : record.isDocumentation <;> cases hanother : another.isDocumentation <;>
    simp only [hrecord, hanother, cond_true, cond_false] at h
  · rfl
  · exact absurd h.symm (hne _ _)
  · exact absurd h (hne _ _)
  · rfl

theorem words_congr (h : record.isDocumentation = another.isDocumentation) :
    record.against = another.against ∧ record.label = another.label := by
  rw [against_eq record, against_eq another, label_eq record, label_eq another, h]
  exact ⟨rfl, rfl⟩

/-- The text of a conflict does not tell which source file it is about. -/
theorem text_conflict_source (subject : Subject) (path path' : Path) (x y : Text) :
    (conflict subject (.source path) x y).text = (conflict subject (.source path') x y).text := rfl

theorem text_conflict_inj (h : Legible subject) (h' : Legible other) (hlength : y.length = y'.length)
    (htext : (conflict subject record x y).text = (conflict other another x' y').text) :
    subject.network = other.network ∧ subject.key = other.key ∧
      record.isDocumentation = another.isDocumentation ∧ x = x' ∧ y = y' := by
  rw [text_conflict, text_conflict] at htext
  have hrest := List.append_cancel_left (List.append_cancel_left htext)
  obtain ⟨hnetwork, hkey, hvalues⟩ := bracketed_inj h.network h'.network h.key h'.key hrest
  replace hvalues := List.append_cancel_left hvalues
  have hdocumentation := isDocumentation_of_against hvalues
  obtain ⟨hagainst, hlabel⟩ := words_congr hdocumentation
  rw [hagainst, hlabel] at hvalues
  replace hvalues := List.append_cancel_left (List.append_cancel_left hvalues)
  -- what stands behind the first value has the same length on both sides
  obtain ⟨hx, hbehind⟩ := List.append_inj' hvalues (by simp only [List.length_append, hlength])
  exact ⟨hnetwork, hkey, hdocumentation, hx, List.append_cancel_left (List.append_cancel_left
    (List.append_cancel_left hbehind))⟩

end Finding

theorem Address.Canonical.length_eq {s : Text} (h : Canonical s) : s.length = digitCount + 2 := by
  obtain ⟨digits, hlength, -, rfl⟩ := h
  rw [List.length_cons, List.length_cons, hlength]

namespace Visit

variable {v : Visit} {plan : Plan} {records : Records} {finding : Finding}

def compared (v : Visit) : List Record :=
  .source v.group.source :: v.network.header.toList.map .documentation

inductive Says (v : Visit) (plan : Plan) : Finding → Prop
  | absent {record : Record} (h : record ∈ .deployments plan.deploymentName :: v.compared) :
      Says v plan (.absent v.subject record)
  | conflict {record : Record} {x y : Text} (h : record ∈ v.compared) (hy : Address.Canonical y) :
      Says v plan (.conflict v.subject record x y)

theorem map_record_others : (v.others records).map Audit.Reading.record = v.compared := by
  rw [others, compared, List.map_cons, List.map_map]
  rfl

theorem says_of_mem_block (h : finding ∈ v.block plan records) : v.Says plan finding := by
  rw [block_eq, Audit.mem_compare] at h
  rcases h with ⟨reading, hmem, -, rfl⟩ | ⟨reading, hmem, ⟨-, hne, -⟩, rfl⟩
  · have hrecord := List.mem_map_of_mem (f := Audit.Reading.record) hmem
    rw [List.map_cons, map_record_others] at hrecord
    exact .absent hrecord
  · have hrecord := List.mem_map_of_mem (f := Audit.Reading.record) hmem
    rw [map_record_others] at hrecord
    exact .conflict hrecord ((v.others_range records hmem).resolve_left hne)

end Visit

namespace Plan

def tokens : List Subject :=
  ethereum.flatMap fun network => zkc.fields.map fun field => ⟨network.key, field.key, field.name⟩

/-- A conflict of a token with each of the source files that list it, with the same address in both. -/
inductive SharedToken : Finding → Finding → Prop
  | intro {subject : Subject} (x y : Text) (h : subject ∈ tokens) :
      SharedToken (.conflict subject (.source zkcPath) x y) (.conflict subject (.source povwPath) x y)

theorem legible_of_mem_visits {v : Visit} (h : v ∈ standard.visits) : Finding.Legible v.subject := by
  have hall : ∀ v ∈ standard.visits, ']' ∉ v.subject.network ∧ ' ' ∉ v.subject.key ∧ ' ' ∉ v.subject.name := by
    decide +kernel
  obtain ⟨hnetwork, hkey, hname⟩ := hall v h
  exact ⟨hnetwork, hkey, hname⟩

/-- A bracket, a word and a place are those of one absence. -/
theorem absences_apart : ∀ v ∈ standard.visits, ∀ w ∈ standard.visits,
    ∀ record ∈ .deployments standard.deploymentName :: v.compared,
      ∀ another ∈ .deployments standard.deploymentName :: w.compared,
        record.bracket v.subject = another.bracket w.subject →
        record.word v.subject = another.word w.subject → record.place = another.place →
        v.subject = w.subject ∧ record = another := by
  decide +kernel

theorem conflicts_apart : ∀ v ∈ standard.visits, ∀ w ∈ standard.visits,
    ∀ record ∈ v.compared, ∀ another ∈ w.compared,
      v.subject.network = w.subject.network → v.subject.key = w.subject.key →
      record.isDocumentation = another.isDocumentation →
      v.subject = w.subject ∧ (record = another ∨ v.subject ∈ tokens ∧
        (record = .source zkcPath ∧ another = .source povwPath ∨
          record = .source povwPath ∧ another = .source zkcPath)) := by
  decide +kernel

/-- What visits of the standard plan say has one text only if it is the same, but for a token that two source
files have with one address. -/
theorem eq_or_shared {v w : Visit} (hv : v ∈ standard.visits) (hw : w ∈ standard.visits) {f g : Finding}
    (hf : v.Says standard f) (hg : w.Says standard g) (htext : f.text = g.text) :
    f = g ∨ SharedToken f g ∨ SharedToken g f := by
  have hlegible := legible_of_mem_visits hv
  have hlegible' := legible_of_mem_visits hw
  cases hf with
  | @absent record hrecord =>
    cases hg with
    | @absent another hanother =>
      obtain ⟨hbracket, hword, hplace⟩ := Finding.text_absent_inj hlegible hlegible' htext
      obtain ⟨hsubject, rfl⟩ := absences_apart v hv w hw record hrecord another hanother hbracket hword hplace
      exact Or.inl (by rw [hsubject])
    | conflict hanother hy => exact absurd htext Finding.text_absent_ne_conflict
  | @conflict record x y hrecord hy =>
    cases hg with
    | absent hanother => exact absurd htext.symm Finding.text_absent_ne_conflict
    | @conflict another x' y' hanother hy' =>
      obtain ⟨hnetwork, hkey, hdocumentation, rfl, rfl⟩ :=
        Finding.text_conflict_inj hlegible hlegible' ((Address.Canonical.length_eq hy).trans
          (Address.Canonical.length_eq hy').symm) htext
      obtain ⟨hsubject, rfl | ⟨htoken, ⟨rfl, rfl⟩ | ⟨rfl, rfl⟩⟩⟩ :=
        conflicts_apart v hv w hw record hrecord another hanother hnetwork hkey hdocumentation
      · exact Or.inl (by rw [hsubject])
      · rw [← hsubject]
        exact Or.inr (Or.inl (.intro x y htoken))
      · rw [← hsubject]
        exact Or.inr (Or.inr (.intro x y htoken))

theorem SharedToken.text_eq {f g : Finding} (h : SharedToken f g) : f.text = g.text := by
  obtain ⟨x, y, -⟩ := h
  exact Finding.text_conflict_source _ _ _ x y

theorem says_of_mem_findings {plan : Plan} {records : Records} {f : Finding}
    (h : f ∈ (plan.audit records).findings) (haddress : f.isPlaceholder = false) :
    ∃ v ∈ plan.visits, v.Says plan f := by
  rw [findings_audit, List.mem_append] at h
  rcases h with h | h
  · obtain ⟨line, -, rfl⟩ := List.mem_map.mp h
    cases haddress
  · obtain ⟨v, hv, hblock⟩ := List.mem_flatMap.mp h
    exact ⟨v, hv, Visit.says_of_mem_block hblock⟩

end Plan

/-- Two findings of one report on the standard plan that are no placeholders have the same text only if they
are equal, with one exception: the same conflict of a token with both source files that list it. -/
theorem same_text_iff (records : Records) {f g : Finding} (hf : f ∈ (Plan.standard.audit records).findings)
    (hg : g ∈ (Plan.standard.audit records).findings) (hf' : f.isPlaceholder = false)
    (hg' : g.isPlaceholder = false) :
    f.text = g.text ↔ f = g ∨ Plan.SharedToken f g ∨ Plan.SharedToken g f := by
  constructor
  · intro htext
    obtain ⟨v, hv, hsays⟩ := Plan.says_of_mem_findings hf hf'
    obtain ⟨w, hw, hsays'⟩ := Plan.says_of_mem_findings hg hg'
    exact Plan.eq_or_shared hv hw hsays hsays' htext
  · rintro (rfl | h | h)
    · rfl
    · exact h.text_eq
    · exact h.text_eq.symm

def tokenDeployed : Text := "0x1111111111111111111111111111111111111111".toList

def tokenListed : Text := "0x2222222222222222222222222222222222222222".toList

def tokenSource : Text :=
  "pub const MAINNET: Deployment = Deployment \x7b\n    zkc_address: address!(\"".toList ++ tokenListed ++
    "\"),\n\x7d;\n".toList

def tokenRecords : Records where
  deployments := [("deployment".toList,
    .table [("ethereum-mainnet".toList, .table [("zkc".toList, .string tokenDeployed)])])]
  sources := [(Plan.zkcPath, tokenSource), (Plan.povwPath, tokenSource)]
  documentation := []

def listedToken : Subject := ⟨"ethereum-mainnet".toList, "zkc".toList, "zkc_address".toList⟩

def unlistedToken : Subject := ⟨"ethereum-mainnet".toList, "vezkc".toList, "vezkc_address".toList⟩

theorem unlistedToken_told_apart :
    .absent unlistedToken (.source Plan.zkcPath) ∈ (Plan.standard.audit tokenRecords).findings ∧
    .absent unlistedToken (.source Plan.povwPath) ∈ (Plan.standard.audit tokenRecords).findings ∧
    (Finding.absent unlistedToken (.source Plan.zkcPath)).text ≠
      (Finding.absent unlistedToken (.source Plan.povwPath)).text := by
  have hboth : ∀ path ∈ [Plan.zkcPath, Plan.povwPath],
      .absent unlistedToken (.source path) ∈ (Plan.standard.audit tokenRecords).findings := by decide +kernel
  have hzkc := hboth Plan.zkcPath (by simp)
  have hpovw := hboth Plan.povwPath (by simp)
  refine ⟨hzkc, hpovw, fun htext => ?_⟩
  rcases (same_text_iff tokenRecords hzkc hpovw rfl rfl).mp htext with h | h | h
  · exact absurd h (by decide)
  · cases h
  · cases h

/-- The conflicts of a token with the two source files are different and have one text. -/
theorem shared_token_text :
    .conflict listedToken (.source Plan.zkcPath) tokenDeployed tokenListed ∈
      (Plan.standard.audit tokenRecords).disagreements ∧
    .conflict listedToken (.source Plan.povwPath) tokenDeployed tokenListed ∈
      (Plan.standard.audit tokenRecords).disagreements ∧
    (Finding.conflict listedToken (.source Plan.zkcPath) tokenDeployed tokenListed).text =
      (Finding.conflict listedToken (.source Plan.povwPath) tokenDeployed tokenListed).text ∧
    Finding.conflict listedToken (.source Plan.zkcPath) tokenDeployed tokenListed ≠
      .conflict listedToken (.source Plan.povwPath) tokenDeployed tokenListed := by
  have hboth : ∀ path ∈ [Plan.zkcPath, Plan.povwPath],
      .conflict listedToken (.source path) tokenDeployed tokenListed ∈
        (Plan.standard.audit tokenRecords).disagreements := by decide +kernel
  exact ⟨hboth _ (by simp), hboth _ (by simp), Finding.text_conflict_source _ _ _ _ _, by decide⟩

end DeploymentRecords
