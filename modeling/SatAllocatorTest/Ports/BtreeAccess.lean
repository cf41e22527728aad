import SatAllocatorTest.Ports.BtreeSet

/-!
# Invalid accesses

Which runs of the B-tree code use only slots they may use.  Of the invalid accesses
that stop a run, none ever happens (`run_ok`); what is left are the reads of `keys`
that are recorded in `Mem.faults`.

`removeUpper` makes such reads: in an inner node of `n` keys, `delUpper` evaluates
`key < key_arr[pos]` also when `pos` is `n`.  No other access of the code goes wrong,
so a run is free of invalid accesses exactly when each of its calls of `removeUpper`
is one that `Tree.SafeUpper` describes.

Main result: `run_faultless_iff`.
-/

namespace SatAllocatorTest.Ports.Btree

open SatAllocatorTest.Verified.Refinement

variable {K : Type} [LinearOrder K]

/-- The call finds the slots it reads: for `removeUpper`, no inner node on the way to
its key that has only smaller keys below it is full, or has an unwritten slot behind
its last key. -/
def Op.Safe (c : Cfg K) (s : Mem K) : Op K → Prop
  | .removeUpper key _ => ∀ h, ∀ t : Tree K h, Stores c s t → t.SafeUpper c s.heap key
  | _ => True

/-- One call makes no invalid read exactly when it is safe. -/
theorem exec_faults_iff {c : Cfg K} {s : Mem K} {S : Finset K} (hs : HoldsSet c s S) (op : Op K) :
    ∃ r s', exec c op s = .ok (r, s') ∧ (∃ S', HoldsSet c s' S') ∧
      (s'.faults = [] ↔ s.faults = [] ∧ op.Safe c s) := by
  obtain ⟨h, t, hs, -⟩ := hs
  obtain ⟨r, s', h', t', fs, hrun, hs', -, -, hfaults, hfs⟩ := exec_ok hs op
  -- whichever tree the state is said to store, the run is the same
  have hsafe : fs = [] ↔ op.Safe c s := by
    cases op with
    | insert => exact ⟨fun _ => trivial, fun _ => hfs.2 (by simp)⟩
    | remove => exact ⟨fun _ => trivial, fun _ => hfs.2 (by simp)⟩
    | contains => exact ⟨fun _ => trivial, fun _ => hfs.2 (by simp)⟩
    | removeUpper key found =>
        constructor
        · intro hnil k u hu
          obtain ⟨_, _, _, _, fs', hrun', -, -, -, hfaults', hfs'⟩ :=
            exec_ok hu (.removeUpper key found)
          cases hrun.symm.trans hrun'
          have heq : fs' = fs := List.append_cancel_right (hfaults'.symm.trans hfaults)
          exact hfs'.1 (heq.trans hnil) key found rfl
        · intro hall
          refine hfs.2 fun key' found' hop => ?_
          cases hop
          exact hall h t hs
  refine ⟨r, s', hrun, ⟨_, h', t', hs', rfl⟩, ?_⟩
  rw [hfaults, List.append_eq_nil_iff, and_comm, hsafe]

/-- A run from the empty tree makes no invalid access if and only if all its calls
are safe: no index is out of bounds, no pointer null, no node freed, and no slot read
before it is written. -/
theorem run_faultless_iff (c : Cfg K) (ops : List (Op K)) :
    (∃ rs s, run c ops Mem.empty = .ok (rs, s) ∧ s.faults = []) ↔
      AllSteps (exec c) (Op.Safe c) ops Mem.empty := by
  refine (runAll_good_iff (R := fun s => ∃ S, HoldsSet c s S) (G := fun s => s.faults = [])
    (P := fun s op => op.Safe c s) ?_ ops Mem.empty ⟨∅, holdsSet_empty⟩).trans
    (and_iff_right rfl)
  rintro s op ⟨S, hs⟩
  obtain ⟨r, s', hrun, hs', hiff⟩ := exec_faults_iff hs op
  exact ⟨r, s', hrun, hs', hiff⟩

/-- Keys are numbers, nodes have up to two of them, and unused slots hold `0`. -/
def smallCfg : Cfg Nat where
  M := 3
  three_le := Nat.le_refl 3
  allocNode allocated := allocated.foldr max 0 + 1
  fresh allocated hmem := by
    have hle : ∀ l : List Nat, ∀ a ∈ l, a ≤ l.foldr max 0 := by
      intro l
      induction l with
      | nil => simp
      | cons b l ih =>
          intro a ha
          rcases List.mem_cons.1 ha with rfl | ha
          · exact Nat.le_max_left _ _
          · exact le_trans (ih a ha) (Nat.le_max_right _ _)
    exact absurd (hle _ _ hmem) (Nat.not_succ_le_self _)
  junk _ _ _ _ := 0

/-- Three keys make a root of one key over two leaves; looking for a larger one reads
the root's second key, which was never written. -/
theorem removeUpper_reads_unwritten :
    ¬∀ (c : Cfg Nat) (ops : List (Op Nat)),
      ∃ rs s, run c ops Mem.empty = .ok (rs, s) ∧ s.faults = [] := by
  intro hall
  obtain ⟨rs, s, hrun, hnil⟩ := hall smallCfg [.insert 1, .insert 2, .insert 3, .removeUpper 5 0]
  have hfaults : (run smallCfg [.insert 1, .insert 2, .insert 3, .removeUpper 5 0]
      Mem.empty).toOption.map (fun out => out.2.faults) = some [.keyUnwritten 3 1] := by
    decide +kernel
  rw [hrun] at hfaults
  simp [Except.toOption, hnil] at hfaults

end SatAllocatorTest.Ports.Btree
