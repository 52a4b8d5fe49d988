import DeploymentRecords.Proofs.FirstPlaces
import Mathlib.Data.List.Forall2

/-! # Patterns

A pattern is a row of pieces. A piece takes a fixed text or characters of a class, as many as there are;
where the pieces behind it cannot go on it gives them back, one at a time from the end. Whatever the order
in which this is tried, the ways to match a pattern are the divisions of the front of a text into parts
that fit the pieces. -/

namespace DeploymentRecords.Text

inductive Piece where
  | fixed (t : Text)
  | star (p : Char → Bool)
  | plus (p : Char → Bool)

/-- The ways to take characters of a class from the front of a text, the longest first. -/
def runs (p : Char → Bool) : Text → List (Text × Text)
  | [] => [([], [])]
  | c :: s =>
    (if p c then (runs p s).map fun (run, rest) => (c :: run, rest) else []) ++ [([], c :: s)]

namespace Piece

def ways : Piece → Text → List (Text × Text)
  | fixed t, s => (after? t s).toList.map fun rest => (t, rest)
  | star p, s => runs p s
  | plus p, s => (runs p s).filter fun (run, _) => !run.isEmpty

def Fits : Piece → Text → Prop
  | fixed t, part => part = t
  | star p, part => ∀ c ∈ part, p c = true
  | plus p, part => part ≠ [] ∧ ∀ c ∈ part, p c = true

end Piece

/-- The ways to match a pattern at the front of a text, in the order in which they are tried: the part
of each piece, and what follows the last. -/
def ways : List Piece → Text → List (List Text × Text)
  | [], s => [([], s)]
  | piece :: pattern, s => (piece.ways s).flatMap fun (part, t) =>
    (ways pattern t).map fun (parts, rest) => (part :: parts, rest)

def matchHere? (pattern : List Piece) (s : Text) : Option (List Text × Text) := (ways pattern s).head?

/-- The matches of a pattern that takes something, from left to right, each behind the one before. -/
def matchAll (pattern : List Piece) (s : Text) : List (List Text) :=
  match search? (matchHere? pattern) s with
  | none => []
  | some (parts, rest) => if rest.length < s.length then parts :: matchAll pattern rest else []
termination_by s.length

variable {p : Char → Bool} {s part rest : Text} {piece : Piece} {pattern : List Piece} {parts : List Text}

theorem mem_runs_cons {c : Char} : (part, rest) ∈ runs p (c :: s) ↔
    part = [] ∧ rest = c :: s ∨ p c = true ∧ ∃ run, part = c :: run ∧ (run, rest) ∈ runs p s := by
  rw [runs, List.mem_append, List.mem_singleton, Prod.mk.injEq, or_comm]
  refine or_congr_right ?_
  split
  · next hc => simp [hc, and_comm, eq_comm]
  · next hc => simp [hc]

theorem mem_runs : (part, rest) ∈ runs p s ↔ s = part ++ rest ∧ ∀ c ∈ part, p c = true := by
  induction s generalizing part with
  | nil =>
    rw [runs, List.mem_singleton, Prod.mk.injEq, List.nil_eq_append_iff]
    exact ⟨fun h => ⟨h, by simp [h.1]⟩, fun h => h.1⟩
  | cons c s ih =>
    rw [mem_runs_cons]
    constructor
    · rintro (⟨rfl, rfl⟩ | ⟨hc, run, rfl, hrun⟩)
      · exact ⟨rfl, List.forall_mem_nil _⟩
      · obtain ⟨rfl, hall⟩ := ih.mp hrun
        exact ⟨rfl, List.forall_mem_cons.mpr ⟨hc, hall⟩⟩
    · rintro ⟨hs, hall⟩
      cases part with
      | nil => exact Or.inl ⟨rfl, hs.symm⟩
      | cons d run =>
        obtain ⟨rfl, rfl⟩ := List.cons.inj hs
        obtain ⟨hc, hall⟩ := List.forall_mem_cons.mp hall
        exact Or.inr ⟨hc, run, rfl, ih.mpr ⟨rfl, hall⟩⟩

theorem Piece.mem_ways : (part, rest) ∈ piece.ways s ↔ s = part ++ rest ∧ piece.Fits part := by
  cases piece with
  | fixed t =>
    simp only [ways, Fits, List.mem_map, Option.mem_toList, after?_eq_some_iff, Prod.mk.injEq]
    constructor
    · rintro ⟨_, rfl, rfl, rfl⟩
      exact ⟨rfl, rfl⟩
    · rintro ⟨rfl, rfl⟩
      exact ⟨rest, rfl, rfl, rfl⟩
  | star p => exact mem_runs
  | plus p =>
    rw [ways, List.mem_filter, mem_runs, Fits, and_assoc, and_congr_right_iff]
    intro _
    simp [and_comm]

/-- The ways to match a pattern are the divisions of the front of a text into parts that fit. -/
theorem mem_ways : (parts, rest) ∈ ways pattern s ↔
    s = parts.flatten ++ rest ∧ List.Forall₂ Piece.Fits pattern parts := by
  induction pattern generalizing s parts rest with
  | nil =>
    rw [ways, List.mem_singleton, Prod.mk.injEq, List.forall₂_nil_left_iff]
    constructor
    · rintro ⟨rfl, rfl⟩
      exact ⟨rfl, rfl⟩
    · rintro ⟨rfl, rfl⟩
      exact ⟨rfl, rfl⟩
  | cons piece pattern ih =>
    simp only [ways, List.mem_flatMap, List.mem_map, Prod.exists, Piece.mem_ways, ih, Prod.mk.injEq,
      List.forall₂_cons_left_iff]
    constructor
    · rintro ⟨part, _, ⟨rfl, hpart⟩, parts, _, ⟨rfl, hparts⟩, rfl, rfl⟩
      exact ⟨by simp, part, parts, hpart, hparts, rfl⟩
    · rintro ⟨rfl, part, parts, hpart, hparts, rfl⟩
      exact ⟨part, parts.flatten ++ rest, ⟨by simp, hpart⟩, parts, rest, ⟨rfl, hparts⟩, rfl, rfl⟩

theorem mem_ways_of_matchHere? (h : matchHere? pattern s = some (parts, rest)) : (parts, rest) ∈ ways pattern s :=
  List.mem_of_head? h

theorem matchHere?_eq_none_iff : matchHere? pattern s = none ↔ ∀ parts rest, (parts, rest) ∉ ways pattern s := by
  rw [matchHere?, List.head?_eq_none_iff, List.eq_nil_iff_forall_not_mem, Prod.forall]

example : matchHere? [.star Char.isDigit, .plus Char.isDigit, .fixed [';']] "407; 1;".toList =
    some (["40".toList, "7".toList, [';']], " 1;".toList) := by
  decide

end DeploymentRecords.Text
