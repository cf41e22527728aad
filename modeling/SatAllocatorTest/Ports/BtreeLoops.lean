import SatAllocatorTest.Ports.BtreeCode
import SatAllocatorTest.Ports.BtreeTree
import SatAllocatorTest.Verified.Refinement

/-!
# The loops of the B-tree

Every loop of `btree.h` runs inside one node or copies from one node to another.
Each is executed here once, on nodes whose live slots are known, and its effect
is stated for the slots as wholes; the functions that contain the loops are
executed from these lemmas and unfold no loop again.
-/

namespace SatAllocatorTest.Ports.Btree

open SatAllocatorTest.Verified.Slots
open SatAllocatorTest.Verified.Refinement

variable {K : Type} {c : Cfg K} {s : Mem K} {a : Addr} {nd : BtNode K}

/-! ## Searching a node -/

section Search

variable [LinearOrder K] {key : K} {keys : List K}

theorem searchIdx_le (key : K) (keys : List K) : searchIdx key keys ≤ keys.length :=
  List.findIdx_le_length

theorem searchIdx_cons (key k : K) (keys : List K) :
    searchIdx key (k :: keys) = if key ≤ k then 0 else searchIdx key keys + 1 := by
  simp [searchIdx, List.findIdx_cons]

/-- Left of the position every key is smaller. -/
theorem lt_of_lt_searchIdx {i : Nat} {k : K} (hk : keys[i]? = some k)
    (hi : i < searchIdx key keys) : k < key := by
  have := List.not_of_lt_findIdx hi
  rw [List.getElem?_eq_some_iff] at hk
  obtain ⟨hlen, rfl⟩ := hk
  simpa using this

/-- The key at the position is not smaller. -/
theorem le_of_searchIdx {k : K} (hk : keys[searchIdx key keys]? = some k) : key ≤ k := by
  obtain ⟨hlen, rfl⟩ := List.getElem?_eq_some_iff.1 hk
  exact of_decide_eq_true (List.findIdx_getElem (w := hlen))

private theorem searchPosFrom_ok (ha : s.heap a = some nd) (hk : Holds nd.keys keys)
    (hlen : keys.length ≤ c.M - 1) :
    ∀ left pos, pos + left = keys.length →
      searchPosFrom c key (some a) left pos s =
        .ok (pos + searchIdx key (keys.drop pos), s) := by
  intro left
  induction left with
  | zero =>
      intro pos hpos
      rw [List.drop_eq_nil_of_le (by omega)]
      rfl
  | succ left ih =>
      intro pos hpos
      have hlt : pos < keys.length := by omega
      rw [List.drop_eq_getElem_cons hlt, searchIdx_cons, searchPosFrom,
        bind_ok (readKey_ok ha (by omega) (hk.get hlt))]
      by_cases hle : key ≤ keys[pos]
      · rw [if_neg (not_lt.2 hle), if_pos hle]
        rfl
      · rw [if_pos (not_le.1 hle), if_neg hle, ih (pos + 1) (by omega)]
        congr 2
        omega

theorem searchPos_ok (ha : s.heap a = some nd) (hk : Holds nd.keys keys)
    (hlen : keys.length ≤ c.M - 1) (key : K) :
    searchPos c key (some a) keys.length s = .ok (searchIdx key keys, s) := by
  rw [searchPos, searchPosFrom_ok ha hk hlen keys.length 0 (by omega)]
  simp

theorem foundAt_ok (ha : s.heap a = some nd) (hk : Holds nd.keys keys)
    (hlen : keys.length ≤ c.M - 1) (key : K) (pos : Nat) :
    foundAt c key (some a) pos keys.length s =
      .ok (decide (keys[pos]? = some key), s) := by
  unfold foundAt
  by_cases hpos : pos < keys.length
  · rw [if_pos hpos, bind_ok (readKey_ok ha (by omega) (hk.get hpos)), pure_ok,
      List.getElem?_eq_getElem hpos]
    simp [eq_comm]
  · rw [if_neg hpos, pure_ok, List.getElem?_eq_none (by omega)]
    simp

end Search

/-! ## Moving the tail of a node -/

private theorem shiftRight_spec (pos : Nat) :
    ∀ (count : Nat) (s : Mem K) (nd : BtNode K), s.heap a = some nd →
      pos + count < c.M - 1 →
      (∀ j, j < count → ∃ k, nd.keys (pos + j) = some k) →
      (∀ j, j < count → ∃ q, nd.p (pos + j + 1) = some q) →
      ∃ nd', shiftRight c (some a) pos count s = .ok ((), s.set a nd') ∧ nd'.n = nd.n ∧
        (∀ i, nd'.keys i = if pos < i ∧ i ≤ pos + count then nd.keys (i - 1) else nd.keys i) ∧
        (∀ i, nd'.p i = if pos + 1 < i ∧ i ≤ pos + count + 1 then nd.p (i - 1)
          else nd.p i) := by
  intro count
  induction count with
  | zero =>
      intro s nd ha _ _ _
      refine ⟨nd, ?_, rfl, fun i => ?_, fun i => ?_⟩
      · rw [Mem.set_self ha]
        rfl
      · rw [if_neg (by omega)]
      · rw [if_neg (by omega)]
  | succ count ih =>
      intro s nd ha hroom hkeys hps
      obtain ⟨k, hk⟩ := hkeys count (by omega)
      obtain ⟨q, hq⟩ := hps count (by omega)
      have hM := c.three_le
      -- one round, then the rounds below it
      let nd₁ := nd.setKey (pos + count + 1) k
      let nd₂ := nd₁.setP (pos + count + 2) q
      have hkeys₂ : ∀ i, i ≠ pos + count + 1 → nd₂.keys i = nd.keys i :=
        fun i hi => Function.update_of_ne hi _ _
      have hp₂ : ∀ i, i ≠ pos + count + 2 → nd₂.p i = nd.p i :=
        fun i hi => Function.update_of_ne hi _ _
      obtain ⟨nd', hrun, hn, hkeys', hp'⟩ :=
        ih (s.set a nd₂) nd₂ (Mem.set_same _ _ _) (by omega)
          (fun j hj => by rw [hkeys₂ _ (by omega)]; exact hkeys j (by omega))
          (fun j hj => by rw [hp₂ _ (by omega)]; exact hps j (by omega))
      refine ⟨nd', ?_, hn, fun i => ?_, fun i => ?_⟩
      · rw [shiftRight, bind_ok (readKey_ok ha (by omega) hk),
          bind_ok (writeKey_ok ha (by omega) k),
          bind_ok (readP_ok (Mem.set_same s a nd₁) (by omega) hq),
          bind_ok (writeP_ok (Mem.set_same s a nd₁) (by omega) q), Mem.set_set, hrun,
          Mem.set_set]
      · rw [hkeys']
        by_cases hi : i = pos + count + 1
        · subst hi
          rw [if_neg (by omega), if_pos (by omega)]
          simpa [nd₂, nd₁] using hk.symm
        · by_cases hlt : pos < i ∧ i ≤ pos + count
          · rw [if_pos hlt, if_pos (by omega), hkeys₂ _ (by omega)]
          · rw [if_neg hlt, if_neg (by omega), hkeys₂ _ hi]
      · rw [hp']
        by_cases hi : i = pos + count + 2
        · subst hi
          rw [if_neg (by omega), if_pos (by omega)]
          simpa [nd₂, nd₁] using hq.symm
        · by_cases hlt : pos + 1 < i ∧ i ≤ pos + count + 1
          · rw [if_pos hlt, if_pos (by omega), hp₂ _ (by omega)]
          · rw [if_neg hlt, if_neg (by omega), hp₂ _ hi]

/-- The tail moves right and the new key and pointer take the gap: an insertion
into the live slots. -/
theorem shiftRight_putAt (pos : Nat) {keys : List K} {kids : List Ptr}
    (ha : s.heap a = some nd) (hk : Holds nd.keys keys) (hp : Holds nd.p kids)
    (hkids : kids.length = keys.length + 1) (hroom : keys.length < c.M - 1)
    (hpos : pos ≤ keys.length) (k : K) (q : Ptr) :
    ∃ s₁ nd', shiftRight c (some a) pos (keys.length - pos) s = .ok ((), s₁) ∧
      putAt c (some a) pos k q s₁ = .ok ((), s.set a nd') ∧ nd'.n = nd.n ∧
      Holds nd'.keys (keys.insertIdx pos k) ∧ Holds nd'.p (kids.insertIdx (pos + 1) q) := by
  obtain ⟨nd₁, hrun, hn, hkeys₁, hp₁⟩ := shiftRight_spec (c := c) pos (keys.length - pos) s nd ha
    (by omega) (fun j hj => hk.written (by omega)) (fun j hj => hp.written (by omega))
  refine ⟨s.set a nd₁, (nd₁.setKey pos k).setP (pos + 1) q, hrun, ?_, hn, ?_, ?_⟩
  · rw [putAt, bind_ok (writeKey_ok (Mem.set_same s a nd₁) (by omega) k),
      writeP_ok (Mem.set_same _ a _) (by omega) q, Mem.set_set, Mem.set_set]
  · refine hk.insertIdx (by simp) (fun i hi => ?_) (fun i hi hlen => ?_)
    · rw [BtNode.setP_keys, BtNode.setKey_keys, Function.update_of_ne (by omega), hkeys₁,
        if_neg (by omega)]
    · rw [BtNode.setP_keys, BtNode.setKey_keys, Function.update_of_ne (by omega), hkeys₁,
        if_pos (by omega), Nat.add_sub_cancel]
  · refine hp.insertIdx (by simp) (fun i hi => ?_) (fun i hi hlen => ?_)
    · rw [BtNode.setP_p, BtNode.setKey_p, Function.update_of_ne (by omega), hp₁,
        if_neg (by omega)]
    · rw [BtNode.setP_p, BtNode.setKey_p, Function.update_of_ne (by omega), hp₁,
        if_pos (by omega), Nat.add_sub_cancel]

private theorem shiftLeft_spec :
    ∀ (count i : Nat) (s : Mem K) (nd : BtNode K), s.heap a = some nd → 0 < i →
      i + count ≤ c.M - 1 →
      (∀ j, j < count → ∃ k, nd.keys (i + j) = some k) →
      (∀ j, j < count → ∃ q, nd.p (i + j + 1) = some q) →
      ∃ nd', shiftLeft c (some a) i count s = .ok ((), s.set a nd') ∧ nd'.n = nd.n ∧
        (∀ j, nd'.keys j = if i ≤ j + 1 ∧ j + 1 < i + count then nd.keys (j + 1)
          else nd.keys j) ∧
        (∀ j, nd'.p j = if i ≤ j ∧ j < i + count then nd.p (j + 1) else nd.p j) := by
  intro count
  induction count with
  | zero =>
      intro i s nd ha _ _ _ _
      refine ⟨nd, ?_, rfl, fun j => ?_, fun j => ?_⟩
      · rw [Mem.set_self ha]
        rfl
      · rw [if_neg (by omega)]
      · rw [if_neg (by omega)]
  | succ count ih =>
      intro i s nd ha hi hroom hkeys hps
      obtain ⟨k, hk⟩ := hkeys 0 (by omega)
      obtain ⟨q, hq⟩ := hps 0 (by omega)
      rw [Nat.add_zero] at hk hq
      have hM := c.three_le
      let nd₁ := nd.setKey (i - 1) k
      let nd₂ := nd₁.setP i q
      have hkeys₂ : ∀ j, j ≠ i - 1 → nd₂.keys j = nd.keys j :=
        fun j hj => Function.update_of_ne hj _ _
      have hp₂ : ∀ j, j ≠ i → nd₂.p j = nd.p j :=
        fun j hj => Function.update_of_ne hj _ _
      obtain ⟨nd', hrun, hn, hkeys', hp'⟩ :=
        ih (i + 1) (s.set a nd₂) nd₂ (Mem.set_same _ _ _) (by omega) (by omega)
          (fun j hj => by
            rw [hkeys₂ _ (by omega), show i + 1 + j = i + (j + 1) by omega]
            exact hkeys (j + 1) (by omega))
          (fun j hj => by
            rw [hp₂ _ (by omega), show i + 1 + j + 1 = i + (j + 1) + 1 by omega]
            exact hps (j + 1) (by omega))
      refine ⟨nd', ?_, hn, fun j => ?_, fun j => ?_⟩
      · rw [shiftLeft, bind_ok (readKey_ok ha (by omega) hk), bind_ok (predOf_ok _ hi),
          bind_ok (writeKey_ok ha (by omega) k),
          bind_ok (readP_ok (Mem.set_same s a nd₁) (by omega) hq),
          bind_ok (writeP_ok (Mem.set_same s a nd₁) (by omega) q), Mem.set_set, hrun,
          Mem.set_set]
      · rw [hkeys']
        by_cases hj : j = i - 1
        · subst hj
          rw [if_neg (by omega), if_pos (by omega)]
          simpa [nd₂, nd₁, show i - 1 + 1 = i by omega] using hk.symm
        · by_cases hlt : i + 1 ≤ j + 1 ∧ j + 1 < i + 1 + count
          · rw [if_pos hlt, if_pos (by omega), hkeys₂ _ (by omega)]
          · rw [if_neg hlt, if_neg (by omega), hkeys₂ _ hj]
      · rw [hp']
        by_cases hj : j = i
        · subst hj
          rw [if_neg (by omega), if_pos (by omega)]
          simpa [nd₂, nd₁] using hq.symm
        · by_cases hlt : i + 1 ≤ j ∧ j < i + 1 + count
          · rw [if_pos hlt, if_pos (by omega), hp₂ _ (by omega)]
          · rw [if_neg hlt, if_neg (by omega), hp₂ _ hj]

/-- The tail moves left over the key at `pos` and the pointer behind it. -/
theorem shiftLeft_ok (pos : Nat) {keys : List K} {kids : List Ptr}
    (ha : s.heap a = some nd) (hk : Holds nd.keys keys) (hp : Holds nd.p kids)
    (hkids : kids.length = keys.length + 1) (hlen : keys.length ≤ c.M - 1) :
    ∃ nd', shiftLeft c (some a) (pos + 1) (keys.length - (pos + 1)) s =
        .ok ((), s.set a nd') ∧ nd'.n = nd.n ∧
      Holds nd'.keys (keys.eraseIdx (min pos (keys.length - 1))) ∧
      Holds nd'.p (kids.eraseIdx (min (pos + 1) keys.length)) := by
  by_cases hpos : pos + 1 ≤ keys.length
  · obtain ⟨nd', hrun, hn, hkeys', hp'⟩ := shiftLeft_spec (c := c)
      (keys.length - (pos + 1)) (pos + 1) s nd ha (by omega) (by omega)
      (fun j hj => hk.written (by omega)) (fun j hj => hp.written (by omega))
    refine ⟨nd', hrun, hn, ?_, ?_⟩
    · rw [Nat.min_eq_left (by omega)]
      refine hk.eraseIdx (fun i hi => ?_) (fun i hi hlen => ?_)
      · rw [hkeys', if_neg (by omega)]
      · rw [hkeys', if_pos (by omega)]
    · rw [Nat.min_eq_left hpos]
      refine hp.eraseIdx (fun i hi => ?_) (fun i hi hlen => ?_)
      · rw [hp', if_neg (by omega)]
      · rw [hp', if_pos (by omega)]
  · refine ⟨nd, ?_, rfl, ?_, ?_⟩
    · rw [show keys.length - (pos + 1) = 0 by omega, Mem.set_self ha]
      rfl
    · rw [Nat.min_eq_right (by omega)]
      exact hk.eraseIdx (fun i hi => rfl) (fun i hi hlen => by omega)
    · rw [Nat.min_eq_right (by omega)]
      exact hp.eraseIdx (fun i hi => rfl) (fun i hi hlen => by omega)

/-! ## Copying between nodes -/

theorem shiftUp_spec :
    ∀ (count : Nat) (s : Mem K) (nd : BtNode K), s.heap a = some nd → count < c.M - 1 →
      (∀ j, j < count → ∃ k, nd.keys j = some k) →
      (∀ j, j < count → ∃ q, nd.p j = some q) →
      ∃ nd', shiftUp c (some a) count s = .ok ((), s.set a nd') ∧ nd'.n = nd.n ∧
        (∀ i, nd'.keys i = if 0 < i ∧ i ≤ count then nd.keys (i - 1) else nd.keys i) ∧
        (∀ i, nd'.p i = if 0 < i ∧ i ≤ count then nd.p (i - 1) else nd.p i) := by
  intro count
  induction count with
  | zero =>
      intro s nd ha _ _ _
      refine ⟨nd, ?_, rfl, fun i => ?_, fun i => ?_⟩
      · rw [Mem.set_self ha]
        rfl
      · rw [if_neg (by omega)]
      · rw [if_neg (by omega)]
  | succ count ih =>
      intro s nd ha hroom hkeys hps
      obtain ⟨k, hk⟩ := hkeys count (by omega)
      obtain ⟨q, hq⟩ := hps count (by omega)
      let nd₁ := nd.setKey (count + 1) k
      let nd₂ := nd₁.setP (count + 1) q
      have hkeys₂ : ∀ i, i ≠ count + 1 → nd₂.keys i = nd.keys i :=
        fun i hi => Function.update_of_ne hi _ _
      have hp₂ : ∀ i, i ≠ count + 1 → nd₂.p i = nd.p i :=
        fun i hi => Function.update_of_ne hi _ _
      obtain ⟨nd', hrun, hn, hkeys', hp'⟩ :=
        ih (s.set a nd₂) nd₂ (Mem.set_same _ _ _) (by omega)
          (fun j hj => by rw [hkeys₂ _ (by omega)]; exact hkeys j (by omega))
          (fun j hj => by rw [hp₂ _ (by omega)]; exact hps j (by omega))
      refine ⟨nd', ?_, hn, fun i => ?_, fun i => ?_⟩
      · rw [shiftUp, bind_ok (readKey_ok ha (by omega) hk),
          bind_ok (writeKey_ok ha (by omega) k),
          bind_ok (readP_ok (Mem.set_same s a nd₁) (by omega) hq),
          bind_ok (writeP_ok (Mem.set_same s a nd₁) (by omega) q), Mem.set_set, hrun,
          Mem.set_set]
      · rw [hkeys']
        by_cases hi : i = count + 1
        · subst hi
          rw [if_neg (by omega), if_pos (by omega)]
          simpa [nd₂, nd₁] using hk.symm
        · by_cases hlt : 0 < i ∧ i ≤ count
          · rw [if_pos hlt, if_pos (by omega), hkeys₂ _ (by omega)]
          · rw [if_neg hlt, if_neg (by omega), hkeys₂ _ hi]
      · rw [hp']
        by_cases hi : i = count + 1
        · subst hi
          rw [if_neg (by omega), if_pos (by omega)]
          simpa [nd₂, nd₁] using hq.symm
        · by_cases hlt : 0 < i ∧ i ≤ count
          · rw [if_pos hlt, if_pos (by omega), hp₂ _ (by omega)]
          · rw [if_neg hlt, if_neg (by omega), hp₂ _ hi]

theorem shiftDown_spec :
    ∀ (count i : Nat) (s : Mem K) (nd : BtNode K), s.heap a = some nd →
      i + count < c.M - 1 →
      (∀ j, j ≤ i + count → ∃ k, nd.keys j = some k) →
      (∀ j, j ≤ i + count → ∃ q, nd.p j = some q) →
      ∃ nd', shiftDown c (some a) i count s = .ok ((), s.set a nd') ∧ nd'.n = nd.n ∧
        (∀ j, nd'.keys j = if i ≤ j ∧ j < i + count then nd.keys (j + 1) else nd.keys j) ∧
        (∀ j, nd'.p j = if i ≤ j ∧ j < i + count then nd.p (j + 1) else nd.p j) := by
  intro count
  induction count with
  | zero =>
      intro i s nd ha _ _ _
      refine ⟨nd, ?_, rfl, fun j => ?_, fun j => ?_⟩
      · rw [Mem.set_self ha]
        rfl
      · rw [if_neg (by omega)]
      · rw [if_neg (by omega)]
  | succ count ih =>
      intro i s nd ha hroom hkeys hps
      obtain ⟨k, hk⟩ := hkeys (i + 1) (by omega)
      obtain ⟨q, hq⟩ := hps (i + 1) (by omega)
      let nd₁ := nd.setKey i k
      let nd₂ := nd₁.setP i q
      have hkeys₂ : ∀ j, j ≠ i → nd₂.keys j = nd.keys j :=
        fun j hj => Function.update_of_ne hj _ _
      have hp₂ : ∀ j, j ≠ i → nd₂.p j = nd.p j :=
        fun j hj => Function.update_of_ne hj _ _
      obtain ⟨nd', hrun, hn, hkeys', hp'⟩ :=
        ih (i + 1) (s.set a nd₂) nd₂ (Mem.set_same _ _ _) (by omega)
          (fun j hj => by
            by_cases hji : j = i
            · exact ⟨k, by simp [nd₂, nd₁, hji]⟩
            · rw [hkeys₂ _ hji]
              exact hkeys j (by omega))
          (fun j hj => by
            by_cases hji : j = i
            · exact ⟨q, by simp [nd₂, nd₁, hji]⟩
            · rw [hp₂ _ hji]
              exact hps j (by omega))
      refine ⟨nd', ?_, hn, fun j => ?_, fun j => ?_⟩
      · rw [shiftDown, bind_ok (readKey_ok ha (by omega) hk),
          bind_ok (writeKey_ok ha (by omega) k),
          bind_ok (readP_ok (Mem.set_same s a nd₁) (by omega) hq),
          bind_ok (writeP_ok (Mem.set_same s a nd₁) (by omega) q), Mem.set_set, hrun,
          Mem.set_set]
      · rw [hkeys']
        by_cases hj : j = i
        · subst hj
          rw [if_neg (by omega), if_pos (by omega)]
          simpa [nd₂, nd₁] using hk.symm
        · by_cases hlt : i + 1 ≤ j ∧ j < i + 1 + count
          · rw [if_pos hlt, if_pos (by omega), hkeys₂ _ (by omega)]
          · rw [if_neg hlt, if_neg (by omega), hkeys₂ _ hj]
      · rw [hp']
        by_cases hj : j = i
        · subst hj
          rw [if_neg (by omega), if_pos (by omega)]
          simpa [nd₂, nd₁] using hq.symm
        · by_cases hlt : i + 1 ≤ j ∧ j < i + 1 + count
          · rw [if_pos hlt, if_pos (by omega), hp₂ _ (by omega)]
          · rw [if_neg hlt, if_neg (by omega), hp₂ _ hj]

theorem mergeCopy_spec {al ar : Addr} (hne : al ≠ ar) (ndr : BtNode K) (ln : Nat) :
    ∀ (count i : Nat) (s : Mem K) (nd : BtNode K), s.heap al = some nd →
      s.heap ar = some ndr → ln + i + count + 1 ≤ c.M - 1 →
      (∀ j, j < i + count → ∃ k, ndr.keys j = some k) →
      (∀ j, j < i + count → ∃ q, ndr.p (j + 1) = some q) →
      ∃ nd', mergeCopy c (some al) (some ar) ln i count s = .ok ((), s.set al nd') ∧
        nd'.n = nd.n ∧
        (∀ j, nd'.keys j = if ln + 1 + i ≤ j ∧ j < ln + 1 + i + count
          then ndr.keys (j - (ln + 1)) else nd.keys j) ∧
        (∀ j, nd'.p j = if ln + 2 + i ≤ j ∧ j < ln + 2 + i + count
          then ndr.p (j - (ln + 1)) else nd.p j) := by
  intro count
  induction count with
  | zero =>
      intro i s nd ha _ _ _ _
      refine ⟨nd, ?_, rfl, fun j => ?_, fun j => ?_⟩
      · rw [Mem.set_self ha]
        rfl
      · rw [if_neg (by omega)]
      · rw [if_neg (by omega)]
  | succ count ih =>
      intro i s nd ha hr hroom hkeys hps
      obtain ⟨k, hk⟩ := hkeys i (by omega)
      obtain ⟨q, hq⟩ := hps i (by omega)
      let nd₁ := nd.setKey (ln + 1 + i) k
      let nd₂ := nd₁.setP (ln + 2 + i) q
      have hkeys₂ : ∀ j, j ≠ ln + 1 + i → nd₂.keys j = nd.keys j :=
        fun j hj => Function.update_of_ne hj _ _
      have hp₂ : ∀ j, j ≠ ln + 2 + i → nd₂.p j = nd.p j :=
        fun j hj => Function.update_of_ne hj _ _
      have hr' : ∀ nd', (s.set al nd').heap ar = some ndr :=
        fun nd' => (Mem.set_other hne.symm nd').trans hr
      obtain ⟨nd', hrun, hn, hkeys', hp'⟩ :=
        ih (i + 1) (s.set al nd₂) nd₂ (Mem.set_same _ _ _) (hr' nd₂) (by omega)
          (fun j hj => hkeys j (by omega)) (fun j hj => hps j (by omega))
      refine ⟨nd', ?_, hn, fun j => ?_, fun j => ?_⟩
      · rw [mergeCopy, bind_ok (readKey_ok hr (by omega) hk),
          bind_ok (writeKey_ok ha (by omega) k),
          bind_ok (readP_ok (hr' nd₁) (by omega) hq),
          bind_ok (writeP_ok (Mem.set_same s al nd₁) (by omega) q), Mem.set_set, hrun,
          Mem.set_set]
      · rw [hkeys']
        by_cases hj : j = ln + 1 + i
        · subst hj
          rw [if_neg (by omega), if_pos (by omega), show ln + 1 + i - (ln + 1) = i by omega]
          simpa [nd₂, nd₁] using hk.symm
        · by_cases hlt : ln + 1 + (i + 1) ≤ j ∧ j < ln + 1 + (i + 1) + count
          · rw [if_pos hlt, if_pos (by omega)]
          · rw [if_neg hlt, if_neg (by omega), hkeys₂ _ hj]
      · rw [hp']
        by_cases hj : j = ln + 2 + i
        · subst hj
          rw [if_neg (by omega), if_pos (by omega), show ln + 2 + i - (ln + 1) = i + 1 by omega]
          simpa [nd₂, nd₁] using hq.symm
        · by_cases hlt : ln + 2 + (i + 1) ≤ j ∧ j < ln + 2 + (i + 1) + count
          · rw [if_pos hlt, if_pos (by omega)]
          · rw [if_neg hlt, if_neg (by omega), hp₂ _ hj]

theorem splitCopy_spec {ar ap : Addr} (hne : ar ≠ ap) (ndp : BtNode K)
    (splitPos newn : Nat) (lastKey : K) :
    ∀ (count i : Nat) (s : Mem K) (nd : BtNode K), s.heap ar = some nd →
      s.heap ap = some ndp → i + count = newn → newn + splitPos ≤ c.M - 1 →
      (∀ j, j < newn - 1 → ∃ k, ndp.keys (j + splitPos + 1) = some k) →
      (∀ j, j < newn → ∃ q, ndp.p (j + splitPos + 1) = some q) →
      ∃ nd', splitCopy c (some ar) (some ap) splitPos newn lastKey i count s =
          .ok ((), s.set ar nd') ∧ nd'.n = nd.n ∧
        (∀ j, nd'.keys j = if i ≤ j ∧ j < newn then
          (if j < newn - 1 then ndp.keys (j + splitPos + 1) else some lastKey)
          else nd.keys j) ∧
        (∀ j, nd'.p j = if i ≤ j ∧ j < newn then ndp.p (j + splitPos + 1)
          else nd.p j) := by
  intro count
  induction count with
  | zero =>
      intro i s nd ha _ _ _ _ _
      refine ⟨nd, ?_, rfl, fun j => ?_, fun j => ?_⟩
      · rw [Mem.set_self ha]
        rfl
      · rw [if_neg (by omega)]
      · rw [if_neg (by omega)]
  | succ count ih =>
      intro i s nd ha hp hcount hroom hkeys hps
      obtain ⟨q, hq⟩ := hps i (by omega)
      -- the key of this round: copied, or `lastKey` in the last one
      obtain ⟨k, hk, hstep⟩ : ∃ k,
          (if i < newn - 1 then ndp.keys (i + splitPos + 1) else some lastKey) = some k ∧
          ∀ s' : Mem K, ∀ nd' : BtNode K, s'.heap ar = some nd' → s'.heap ap = some ndp →
            splitKey c (some ar) (some ap) splitPos newn lastKey i s' =
              .ok ((), s'.set ar (nd'.setKey i k)) := by
        unfold splitKey
        by_cases hi : i < newn - 1
        · obtain ⟨k, hk⟩ := hkeys i hi
          refine ⟨k, by rw [if_pos hi, hk], fun s' nd' har hap => ?_⟩
          rw [if_pos hi, bind_ok (readKey_ok hap (by omega) hk), writeKey_ok har (by omega) k]
        · refine ⟨lastKey, by rw [if_neg hi], fun s' nd' har hap => ?_⟩
          rw [if_neg hi, writeKey_ok har (by omega) lastKey]
      let nd₁ := nd.setP i q
      let nd₂ := nd₁.setKey i k
      have hkeys₂ : ∀ j, j ≠ i → nd₂.keys j = nd.keys j :=
        fun j hj => Function.update_of_ne hj _ _
      have hp₂ : ∀ j, j ≠ i → nd₂.p j = nd.p j :=
        fun j hj => Function.update_of_ne hj _ _
      have hp' : ∀ nd', (s.set ar nd').heap ap = some ndp :=
        fun nd' => (Mem.set_other hne.symm nd').trans hp
      obtain ⟨nd', hrun, hn, hkeys', hps'⟩ :=
        ih (i + 1) (s.set ar nd₂) nd₂ (Mem.set_same _ _ _) (hp' nd₂) (by omega) hroom hkeys hps
      refine ⟨nd', ?_, hn, fun j => ?_, fun j => ?_⟩
      · rw [splitCopy, bind_ok (readP_ok hp (by omega) hq),
          bind_ok (writeP_ok ha (by omega) q),
          bind_ok (hstep _ _ (Mem.set_same s ar nd₁) (hp' nd₁)), Mem.set_set, hrun,
          Mem.set_set]
      · rw [hkeys']
        by_cases hj : j = i
        · subst hj
          rw [if_neg (show ¬(j + 1 ≤ j ∧ j < newn) by omega),
            if_pos (show j ≤ j ∧ j < newn by omega), hk]
          simp [nd₂, nd₁]
        · by_cases hlt : i + 1 ≤ j ∧ j < newn
          · rw [if_pos hlt, if_pos (show i ≤ j ∧ j < newn by omega)]
          · rw [if_neg hlt, if_neg (show ¬(i ≤ j ∧ j < newn) by omega), hkeys₂ _ hj]
      · rw [hps']
        by_cases hj : j = i
        · subst hj
          rw [if_neg (by omega), if_pos (by omega), hq]
          simp [nd₂, nd₁]
        · by_cases hlt : i + 1 ≤ j ∧ j < newn
          · rw [if_pos hlt, if_pos (by omega)]
          · rw [if_neg hlt, if_neg (by omega), hp₂ _ hj]

end SatAllocatorTest.Ports.Btree
