import DeploymentRecords.Proofs.Attribution
import DeploymentRecords.Proofs.RecasedPages
import DeploymentRecords.Proofs.RecasedSources

/-! # Audits without regard to letter case

The letter case of an address decides nothing: records in which addresses are spelt in other letter
cases make the same report, values included. -/

namespace DeploymentRecords

open Text Number

structure SameDigits (digits digits' : Text) : Prop where
  length : digits.length = 40
  left : digits.all isHexDigit = true
  right : digits'.all isHexDigit = true
  lower : digits.map Char.toLower = digits'.map Char.toLower

/-- Source files that differ in the digits of literals `address!("0x…")`. -/
inductive SameSource : Text → Text → Prop
  | nil : SameSource [] []
  | same {s t : Text} (c : Char) : SameSource s t → SameSource (c :: s) (c :: t)
  | literal {lead trail digits digits' s t : Text} : (∀ c ∈ lead, isBlank c = true) →
      (∀ c ∈ trail, isBlank c = true) → SameDigits digits digits' → SameSource s t →
      SameSource ("address!(".toList ++ (lead ++ ("\"0x".toList ++ (digits ++ '"' :: (trail ++ ')' :: s)))))
        ("address!(".toList ++ (lead ++ ("\"0x".toList ++ (digits' ++ '"' :: (trail ++ ')' :: t)))))

/-- Lines that differ in the digits of addresses which end their word. -/
inductive SameLine : Text → Text → Prop
  | nil : SameLine [] []
  | same {s t : Text} (c : Char) : SameLine s t → SameLine (c :: s) (c :: t)
  | address {digits digits' s t : Text} : SameDigits digits digits' → Stops isWord s → SameLine s t →
      SameLine ("0x".toList ++ (digits ++ s)) ("0x".toList ++ (digits' ++ t))

structure SamePageLine (l l' : Text) : Prop where
  oneLine : '\n' ∉ l
  spelled : l = l' ∨ contains "TODO".toList l = false ∧ SameLine l l'

inductive SamePage : Text → Text → Prop
  | last {l l' : Text} : SamePageLine l l' → SamePage l l'
  | line {l l' s t : Text} : SamePageLine l l' → SamePage s t → SamePage (l ++ '\n' :: s) (l' ++ '\n' :: t)

inductive Entrywise {α : Type} (R : Text → α → α → Prop) : List (Text × α) → List (Text × α) → Prop
  | nil : Entrywise R [] []
  | cons {v w : α} {es fs : List (Text × α)} (key : Text) :
      R key v w → Entrywise R es fs → Entrywise R ((key, v) :: es) ((key, w) :: fs)

open Toml

def SameString (_ : Text) (v w : Value) : Prop :=
  v = w ∨ ∃ s t, v = .string s ∧ w = .string t ∧ lower s = lower t

def SameSection (_ : Text) (v w : Value) : Prop :=
  v = w ∨ ∃ es fs, v = .table es ∧ w = .table fs ∧ Entrywise SameString es fs

/-- Entries of a deployment file that are the same, but for the strings in sections of networks. -/
def SameNetworks (key : Text) (v w : Value) : Prop :=
  v = w ∨ key = Plan.networksKey ∧ ∃ es fs, v = .table es ∧ w = .table fs ∧ Entrywise SameSection es fs

structure Records.SameAddresses (a b : Records) : Prop where
  deployments : Entrywise SameNetworks a.deployments b.deployments
  sources : Entrywise (fun _ => SameSource) a.sources b.sources
  documentation : SamePage a.documentation b.documentation

namespace SameDigits

variable {digits digits' s t : Text}

theorem recased (h : SameDigits digits digits') (hs : Stops isWord s) (hst : Recased false s t) :
    Recased true (digits ++ s) (digits' ++ t) := by
  obtain ⟨-, hleft, hright, hlower⟩ := h
  induction digits generalizing digits' with
  | nil =>
    obtain rfl : digits' = [] := by simpa using hlower.symm
    exact .stop hs hst
  | cons c digits ih =>
    obtain ⟨d, digits', rfl, hd, hdigits⟩ := List.map_eq_cons_iff.mp hlower.symm
    rw [List.all_cons, Bool.and_eq_true] at hleft hright
    exact .digit ⟨hleft.1, hright.1, hd.symm⟩ (ih hleft.2 hright.2 hdigits.symm)

end SameDigits

theorem SameSource.recased {s t : Text} (h : SameSource s t) : Recased false s t := by
  induction h with
  | nil => exact .nil
  | same c _ ih => exact .same c ih
  | @literal lead trail digits digits' s t _ _ hdigits _ ih =>
    have hquote : Stops isWord ('"' :: (trail ++ ')' :: s)) := by
      rw [stops_cons]
      exact isWord_ascii (by decide)
    have hrest : Recased false ('"' :: (trail ++ ')' :: s)) ('"' :: (trail ++ ')' :: t)) :=
      .same '"' ((Recased.same ')' ih).same_append trail)
    have hopen : Recased false ("\"0x".toList ++ (digits ++ '"' :: (trail ++ ')' :: s)))
        ("\"0x".toList ++ (digits' ++ '"' :: (trail ++ ')' :: t))) :=
      .same '"' (.same '0' (.mark (hdigits.recased hquote hrest)))
    exact (hopen.same_append lead).same_append "address!(".toList

theorem SameLine.recased {s t : Text} (h : SameLine s t) : Recased false s t := by
  induction h with
  | nil => exact .nil
  | same c _ ih => exact .same c ih
  | address hdigits hs _ ih => exact .same '0' (.mark (hdigits.recased hs ih))

namespace SamePageLine

variable {l l' : Text}

theorem recased (h : SamePageLine l l') : Recased false l l' := by
  rcases h.spelled with rfl | ⟨-, h⟩
  · exact Recased.refl l
  · exact h.recased

/-- A line is the same placeholder in both pages, or it is one in neither. -/
theorem placeholders_eq (h : SamePageLine l l') (e : Text) (he : contains "TODO".toList e = false) :
    Documentation.placeholders (l ++ '\n' :: e) = Documentation.placeholders (l' ++ '\n' :: e) ∧
      Documentation.placeholders l = Documentation.placeholders l' := by
  rcases h.spelled with rfl | ⟨hplain, hline⟩
  · exact ⟨rfl, rfl⟩
  have hplain' : contains "TODO".toList l' = false := by
    rw [← hline.recased.contains_eq (by decide) ⟨'T', _, rfl, isWord_ascii (by decide)⟩]
    exact hplain
  have hnone : ∀ m, contains "TODO".toList m = false →
      Documentation.placeholders (m ++ '\n' :: e) = [] := by
    intro m hm
    refine Documentation.placeholders_eq_nil ?_
    rw [contains_append_cons (by decide) (by decide), hm, he]
    rfl
  exact ⟨(hnone l hplain).trans (hnone l' hplain').symm, (Documentation.placeholders_eq_nil hplain).trans
    (Documentation.placeholders_eq_nil hplain').symm⟩

end SamePageLine

namespace SamePage

variable {s t : Text}

theorem recased (h : SamePage s t) : Recased false s t := by
  induction h with
  | last hl => exact hl.recased
  | line hl _ ih =>
    refine hl.recased.append ?_ (.same '\n' ih)
    rw [stops_cons]
    exact isWord_ascii (by decide)

theorem placeholders_eq (h : SamePage s t) : Documentation.placeholders s = Documentation.placeholders t := by
  induction h with
  | last hl => exact (hl.placeholders_eq [] rfl).2
  | @line l l' s t hl _ ih =>
    have hsplit : ∀ m u, Documentation.placeholders (m ++ '\n' :: u) =
        Documentation.placeholders (m ++ ['\n']) ++ Documentation.placeholders u := by
      intro m u
      rw [Documentation.placeholders, lines_append_newline, List.filter_append]
      rfl
    rw [hsplit l s, hsplit l' t, (hl.placeholders_eq [] rfl).1, ih]

end SamePage

namespace Entrywise

variable {α : Type} {R : Text → α → α → Prop} {es fs : List (Text × α)}

theorem lookup (h : Entrywise R es fs) (key : Text) :
    Option.Rel (R key) (es.lookup key) (fs.lookup key) := by
  induction h with
  | nil => exact .none
  | cons other hv _ ih =>
    rw [List.lookup_cons, List.lookup_cons]
    split
    · next hkey =>
      obtain rfl : key = other := by simpa using hkey
      exact .some hv
    · exact ih

theorem find? (h : Entrywise R es fs) (p : Text → Bool) :
    Option.Rel (fun e f => e.1 = f.1 ∧ R e.1 e.2 f.2) (es.find? fun e => p e.1) (fs.find? fun e => p e.1) := by
  induction h with
  | nil => exact .none
  | cons key hv _ ih =>
    rw [List.find?_cons, List.find?_cons]
    cases p key with
    | true => exact .some ⟨rfl, hv⟩
    | false => exact ih

end Entrywise

namespace Records.SameAddresses

open Recased

variable {a b : Records}

theorem source (h : a.SameAddresses b) (path : Files.Path) : Recased false (a.source path) (b.source path) := by
  rw [Records.source, Records.source]
  rcases rel_cases (h.sources.find? (Files.Path.same path)) with ⟨hs, ht⟩ | ⟨e, f, hs, ht, -, hst⟩
  · rw [hs, ht]
    exact .nil
  · rw [hs, ht]
    exact hst.recased

theorem section_rel (h : a.SameAddresses b) (network : Text) :
    a.section? network = b.section? network ∨ ∃ es fs, a.section? network = some es ∧
      b.section? network = some fs ∧ Entrywise SameString es fs := by
  rw [Records.section?, Records.section?]
  rcases rel_cases (h.deployments.lookup Plan.networksKey) with ⟨hs, ht⟩ | ⟨v, w, hs, ht, hvw⟩
  · rw [hs, ht]
    exact Or.inl rfl
  rw [hs, ht]
  rcases hvw with rfl | ⟨-, networks, networks', rfl, rfl, hnetworks⟩
  · exact Or.inl rfl
  simp only [Option.bind_some, Value.asTable?]
  rcases rel_cases (hnetworks.lookup network) with ⟨hs, ht⟩ | ⟨v, w, hs, ht, hvw⟩
  · rw [hs, ht]
    exact Or.inl rfl
  rw [hs, ht]
  rcases hvw with rfl | ⟨es, fs, rfl, rfl, hentries⟩
  · exact Or.inl rfl
  · exact Or.inr ⟨es, fs, rfl, rfl, hentries⟩

theorem deployedValue_eq (h : a.SameAddresses b) (network key : Text) :
    Audit.deployedValue (a.section? network) key = Audit.deployedValue (b.section? network) key := by
  rcases h.section_rel network with hsame | ⟨es, fs, hs, ht, hentries⟩
  · rw [hsame]
  rw [hs, ht, Audit.deployedValue, Audit.deployedValue, Option.getD_some, Option.getD_some]
  rcases rel_cases (hentries.lookup key) with ⟨hs, ht⟩ | ⟨v, w, hs, ht, rfl | ⟨s, t, rfl, rfl, hlower⟩⟩
  · rw [hs, ht]
  · rw [hs, ht]
  · rw [hs, ht]
    simpa [Value.string, Value.text] using hlower

end Records.SameAddresses

/-- The letter case in which the records spell addresses does not show in the report: neither in what
is found nor in the values that are printed. -/
theorem audit_same_addresses (plan : Plan) {a b : Records} (h : a.SameAddresses b) :
    plan.audit a = plan.audit b := by
  have hnetworks : ∀ group network,
      Audit.ofNetwork plan a group network = Audit.ofNetwork plan b group network := fun group network =>
    Audit.ofNetwork_congr (h.deployedValue_eq network.key)
      ((h.source group.source).source_eq network.constant)
      fun header _ => h.documentation.recased.documentation_eq header
  simp only [Plan.audit, h.documentation.placeholders_eq, hnetworks]

theorem SameSource.same_append {s t : Text} (w : Text) (h : SameSource s t) : SameSource (w ++ s) (w ++ t) := by
  induction w with
  | nil => exact h
  | cons c w ih => exact .same c ih

theorem SameLine.same_append {s t : Text} (w : Text) (h : SameLine s t) : SameLine (w ++ s) (w ++ t) := by
  induction w with
  | nil => exact h
  | cons c w ih => exact .same c ih

def spelledRecords (digits : Text) : Records where
  deployments := [("deployment".toList, .table [("anvil".toList,
    .table [("zkc".toList, .string ("0x".toList ++ digits))])])]
  sources := [("a/b".toList, "pub const ANVIL: Deployment = Deployment \x7b zkc_address: ".toList ++
    ("address!(".toList ++ ([] ++ ("\"0x".toList ++ (digits ++ '"' :: ([] ++ ')' :: ", \x7d;".toList))))))]
  documentation := "TODO 0xAB".toList ++ '\n' :: ("### Anvil".toList ++ '\n' ::
    ("ZKC: ".toList ++ ("0x".toList ++ (digits ++ []))))

def mixedDigits : Text := "ABCDEFabcdef0123456789ABCDEFabcdef012345".toList

def smallDigits : Text := "abcdefabcdef0123456789abcdefabcdef012345".toList

theorem audit_spelledRecords : spelledRecords mixedDigits ≠ spelledRecords smallDigits ∧
    (spelledRecords mixedDigits).SameAddresses (spelledRecords smallDigits) ∧
    sharedPlan.audit (spelledRecords mixedDigits) = sharedPlan.audit (spelledRecords smallDigits) := by
  have hdigits : SameDigits mixedDigits smallDigits := ⟨by decide, by decide, by decide, by decide⟩
  have hlower : lower ("0x".toList ++ mixedDigits) = lower ("0x".toList ++ smallDigits) := by
    rw [SourceTable.lower_digits hdigits.left, SourceTable.lower_digits hdigits.right, hdigits.lower]
  have hline : SameLine ("ZKC: ".toList ++ ("0x".toList ++ (mixedDigits ++ [])))
      ("ZKC: ".toList ++ ("0x".toList ++ (smallDigits ++ []))) :=
    .same_append _ (.address hdigits (by simp) .nil)
  have hsame : (spelledRecords mixedDigits).SameAddresses (spelledRecords smallDigits) := by
    refine ⟨.cons _ (Or.inr ⟨rfl, _, _, rfl, rfl, .cons _ (Or.inr ⟨_, _, rfl, rfl, .cons _
      (Or.inr ⟨_, _, rfl, rfl, hlower⟩) .nil⟩) .nil⟩) .nil, .cons _ ?_ .nil, ?_⟩
    · exact .same_append _ (.literal (by simp) (by simp) hdigits
        (by simpa using SameSource.same_append ", \x7d;".toList .nil))
    · exact .line ⟨by decide, Or.inl rfl⟩ (.line ⟨by decide, Or.inl rfl⟩
        (.last ⟨by decide, Or.inr ⟨by decide, hline⟩⟩))
  refine ⟨fun h => ?_, hsame, audit_same_addresses sharedPlan hsame⟩
  have hdocumentation := congrArg Records.documentation h
  revert hdocumentation
  decide

end DeploymentRecords
