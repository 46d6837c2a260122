import RaftShardedKv.Kv.Dedup

/-!
The files of a job, and the paths that lead to them.

The workers make names as `fmt.Sprintf` and `os.CreateTemp` do, and use them
as paths in the working directory. A file may be reached by many paths: an
input `./mr-1-0` is the file that a worker replaces as `mr-1-0`. So the
directory is a map of files, not of paths, and what a path leads to is a
parameter. Of this map it is only known that the names that the workers make
lead to files of their own; it does not change while the job runs.
-/

namespace RaftShardedKv.Mr

/-! ### Names -/

/-- `%d` of a number that is not negative -/
def decimal (n : ℕ) : GoString := (Nat.toDigits 10 n).map fun c => UInt8.ofNat c.toNat

/-- `fmt.Sprintf("mr-%d-%d", mapID, reduceID)` -/
def intermediateName (mapID reduceID : ℕ) : GoString :=
  [109, 114, 45] ++ (decimal mapID ++ ([45] ++ decimal reduceID))

/-- `fmt.Sprintf("mr-out-%d", reduceID)` -/
def outName (reduceID : ℕ) : GoString := [109, 114, 45, 111, 117, 116, 45] ++ decimal reduceID

/-- The name of `os.CreateTemp(".", finalName+"-*")`. -/
def tempName (finalName : GoString) (random : ℕ) : GoString :=
  [46, 47] ++ (finalName ++ ([45] ++ decimal random))

/-- The names under which a job leaves its files. -/
inductive FinalName
  | intermediate (mapID reduceID : ℕ)
  | out (reduceID : ℕ)
  deriving DecidableEq

def FinalName.path : FinalName → GoString
  | intermediate mapID reduceID => intermediateName mapID reduceID
  | out reduceID => outName reduceID

/-! ### Files -/

/-- A file: the directories on the way to it from the root, and its name. -/
abbrev File := List GoString

abbrev Files := File → Option GoString

structure Paths where
  leads : GoString → File
  final_injective : Function.Injective fun name : FinalName => leads name.path
  temp_ne : ∀ (name name' : FinalName) random, leads (tempName name'.path random) ≠ leads name.path

/-! ### Paths without links -/

/-- The parts of a path are followed one after the other. -/
def follow (dir : File) : List GoString → File
  | [] => dir
  | part :: parts =>
      if part = [] ∨ part = [46] then follow dir parts
      else if part = [46, 46] then follow dir.dropLast parts
      else follow (dir ++ [part]) parts

/-- Where a path leads from the working directory, or from the root. -/
def resolve (cwd : File) (path : GoString) : File :=
  follow (if path.head? = some 47 then [] else cwd) (path.splitOn 47)

theorem toNat_of_mem_toDigits {n : ℕ} {c : Char} (h : c ∈ Nat.toDigits 10 n) :
    48 ≤ c.toNat ∧ c.toNat ≤ 57 := by
  have hdigit := Nat.isDigit_of_mem_toDigits (by decide) (by decide) h
  simp only [Char.isDigit, ge_iff_le, Bool.and_eq_true, decide_eq_true_eq] at hdigit
  exact hdigit

theorem mem_decimal {n : ℕ} {b : UInt8} (h : b ∈ decimal n) : 48 ≤ b.toNat ∧ b.toNat ≤ 57 := by
  obtain ⟨c, hc, rfl⟩ := List.mem_map.mp h
  have hdigit := toNat_of_mem_toDigits hc
  rw [UInt8.toNat_ofNat', Nat.mod_eq_of_lt (by omega)]
  exact hdigit

theorem decimal_injective : Function.Injective decimal := by
  have hread : ∀ n, (decimal n).map (fun b => Char.ofNat b.toNat) = Nat.toDigits 10 n := by
    intro n
    rw [decimal, List.map_map]
    refine (List.map_congr_left fun c hc => ?_).trans (List.map_id _)
    have hdigit := toNat_of_mem_toDigits hc
    simp only [Function.comp_apply, id_eq]
    rw [UInt8.toNat_ofNat', Nat.mod_eq_of_lt (by omega), Char.ofNat_toNat]
  intro m n h
  have hdigits : Nat.toDigits 10 m = Nat.toDigits 10 n := by rw [← hread, ← hread, h]
  have hparsed := congrArg (fun digits => Nat.ofDigitChars 10 digits 0) hdigits
  simpa [Nat.ofDigitChars_toDigits] using hparsed

/-- The parts of a name between the hyphens. -/
def FinalName.parts : FinalName → List GoString
  | intermediate mapID reduceID => [[109, 114], decimal mapID, decimal reduceID]
  | out reduceID => [[109, 114], [111, 117, 116], decimal reduceID]

theorem FinalName.hyphen_notMem {name : FinalName} {part : GoString} (h : part ∈ name.parts) :
    45 ∉ part := by
  have hdecimal : ∀ n, 45 ∉ decimal n := fun n hmem => absurd (mem_decimal hmem).1 (by decide)
  cases name with
  | intermediate mapID reduceID =>
      simp only [parts, List.mem_cons, List.not_mem_nil, or_false] at h
      rcases h with rfl | rfl | rfl
      · decide
      · exact hdecimal _
      · exact hdecimal _
  | out reduceID =>
      simp only [parts, List.mem_cons, List.not_mem_nil, or_false] at h
      rcases h with rfl | rfl | rfl
      · decide
      · decide
      · exact hdecimal _

theorem FinalName.splitOn_path (name : FinalName) : name.path.splitOn 45 = name.parts := by
  have heq : name.path = [45].intercalate name.parts := by
    cases name <;> simp [path, parts, intermediateName, outName, List.intercalate]
  rw [heq, List.splitOn_intercalate 45 (fun _ h => hyphen_notMem h) (by cases name <;> nofun)]

theorem FinalName.path_injective : Function.Injective FinalName.path := by
  intro name name' h
  have hparts : name.parts = name'.parts := by rw [← splitOn_path, ← splitOn_path, h]
  have hout : ∀ n, decimal n ≠ [111, 117, 116] := fun n heq =>
    absurd (mem_decimal (heq.symm ▸ List.mem_cons_self)).2 (by decide)
  cases name <;> cases name' <;> simp only [parts, List.cons.injEq] at hparts
  · obtain ⟨-, hmap, hreduce, -⟩ := hparts
    rw [decimal_injective hmap, decimal_injective hreduce]
  · exact absurd hparts.2.1 (hout _)
  · exact absurd hparts.2.1.symm (hout _)
  · rw [decimal_injective hparts.2.2.1]

theorem FinalName.path_append_ne (name name' : FinalName) (random : ℕ) :
    name'.path ++ ([45] ++ decimal random) ≠ name.path := by
  intro h
  have hparts : name'.parts ++ (decimal random).splitOn 45 = name.parts := by
    rw [← splitOn_path, ← splitOn_path, ← h]
    exact (List.splitOn_append_cons_self _ _).symm
  have hlength := congrArg List.length hparts
  have hthree : ∀ name : FinalName, name.parts.length = 3 := fun name => by cases name <;> rfl
  have hpos := List.length_pos_of_ne_nil (List.splitOn_ne_nil (45 : UInt8) (decimal random))
  rw [List.length_append, hthree, hthree] at hlength
  omega

/-- A name that begins with an `m` and has no slash in it. -/
structure Plain (name : GoString) : Prop where
  head : name.head? = some 109
  slash : 47 ∉ name

theorem FinalName.plain (name : FinalName) : Plain name.path := by
  have hdecimal : ∀ n, 47 ∉ decimal n := fun n hmem => absurd (mem_decimal hmem).1 (by decide)
  cases name with
  | intermediate mapID reduceID =>
      exact ⟨rfl, by simp [path, intermediateName, hdecimal]⟩
  | out reduceID => exact ⟨rfl, by simp [path, outName, hdecimal]⟩

theorem Plain.temp {name : GoString} (h : Plain name) (random : ℕ) :
    Plain (name ++ ([45] ++ decimal random)) := by
  have hdecimal : 47 ∉ decimal random := fun hmem => absurd (mem_decimal hmem).1 (by decide)
  refine ⟨?_, by simp [h.slash, hdecimal]⟩
  rw [List.head?_append, h.head]
  rfl

theorem Plain.follow {name : GoString} (h : Plain name) (dir : File) :
    follow dir [name] = dir ++ [name] := by
  have hempty : ¬ (name = [] ∨ name = [46]) := by
    rintro (rfl | rfl) <;> cases h.head
  have hparent : name ≠ [46, 46] := by
    rintro rfl
    cases h.head
  simp [Mr.follow, hempty, hparent]

theorem Plain.resolve {name : GoString} (h : Plain name) (cwd : File) :
    resolve cwd name = cwd ++ [name] := by
  rw [Mr.resolve, h.head, List.splitOn_eq_singleton h.slash]
  exact h.follow cwd

theorem Plain.resolve_dot {name : GoString} (h : Plain name) (cwd : File) :
    Mr.resolve cwd ([46, 47] ++ name) = cwd ++ [name] := by
  have hsplit : ([46, 47] ++ name).splitOn 47 = [[46], name] := by
    have happend := List.splitOn_append_cons_self (a := (47 : UInt8)) [46] name
    rw [List.splitOn_eq_singleton h.slash] at happend
    exact happend
  rw [Mr.resolve, hsplit]
  exact h.follow cwd

/-- Paths as they are where no link leads elsewhere. -/
def Paths.plain (cwd : File) : Paths where
  leads := resolve cwd
  final_injective name name' h := by
    simp only [name.plain.resolve, name'.plain.resolve] at h
    exact FinalName.path_injective (List.cons.inj (List.append_cancel_left h)).1
  temp_ne name name' random h := by
    rw [tempName, (name'.plain.temp random).resolve_dot, name.plain.resolve] at h
    exact name.path_append_ne name' random (List.cons.inj (List.append_cancel_left h)).1

end RaftShardedKv.Mr
