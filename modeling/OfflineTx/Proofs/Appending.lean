import OfflineTx.Message.Append
import OfflineTx.Proofs.Compilation

/-!
# What appending does

An instruction that asks only for what the table permits brings in the addresses that are not yet
there, each once, in the order in which they are first seen (`enrollAll_of_permits`), and the
message with them is the answer if it is within the limits (`append_eq`). Any other instruction is
refused for a lack of permission (`append_of_not_allows`).
-/

namespace OfflineTx

section NewAccounts

/-- The addresses of references as new accounts, in the order in which they are first seen. -/
def newlySeen (refs : List AccountMeta) : List NewAccount :=
  (firstSeen refs).map fun a => { address := a, writable := writes refs a }

theorem refer_newlySeen (refs : List AccountMeta) (r : AccountMeta) :
    NewAccount.refer (newlySeen refs).reverse r = (newlySeen (refs ++ [r])).reverse := by
  have hany : ((newlySeen refs).reverse.any (·.address == r.address)) =
      decide (r.address ∈ firstSeen refs) := by
    rw [Bool.eq_iff_iff]
    simp [newlySeen]
  unfold NewAccount.refer
  rw [hany]
  by_cases hr : r.address ∈ firstSeen refs
  · have hseen : firstSeen (refs ++ [r]) = firstSeen refs := by rw [firstSeen_snoc, if_pos hr]
    rw [decide_eq_true hr, if_pos rfl, newlySeen, newlySeen, hseen]
    -- Of the references to an account seen before, only one that writes it changes something.
    split
    · rename_i hw
      rw [List.map_reverse, List.map_map]
      refine congrArg _ (List.map_congr_left fun a _ => ?_)
      simp only [Function.comp_apply, writes_snoc, hw, Bool.and_true]
      by_cases ha : a = r.address
      · simp [ha]
      · simp [ha, Ne.symm ha]
    · rename_i hw
      refine congrArg _ (List.map_congr_left fun a _ => ?_)
      simp only [writes_snoc, hw, Bool.and_false, Bool.or_false]
  · have hseen : firstSeen (refs ++ [r]) = firstSeen refs ++ [r.address] := by
      rw [firstSeen_snoc, if_neg hr]
    rw [decide_eq_false hr, if_neg Bool.false_ne_true, newlySeen, newlySeen, hseen,
      List.map_append, List.reverse_append]
    simp only [List.map_cons, List.map_nil, List.reverse_singleton, List.singleton_append,
      writes_snoc, writes_of_not_mem hr, beq_self_eq_true, Bool.true_and, Bool.false_or]
    refine congrArg _ (congrArg _ (List.map_congr_left fun a ha => ?_))
    have hne : (r.address == a) = false := by
      rw [beq_eq_false_iff_ne]
      rintro rfl
      exact hr ha
    rw [hne, Bool.false_and, Bool.or_false]

end NewAccounts

namespace Message

/-- Whether the table permits what a reference asks for. An account of the table needs the
permissions asked for, at its first place there, and an account that is not there may not sign. -/
def permits (m : Message) (a : AccountMeta) : Bool :=
  match m.indexOf? a.address with
  | some i =>
    (!a.signer || m.isSigner (.ofNat i)) && (!a.writable || m.isWritable (.ofNat i))
  | none => !a.signer

def Allows (m : Message) (ix : Instruction) : Prop :=
  ∀ a ∈ ix.accounts, m.permits a = true

instance (m : Message) (ix : Instruction) : Decidable (m.Allows ix) :=
  inferInstanceAs (Decidable (∀ a ∈ ix.accounts, m.permits a = true))

def newReferences (m : Message) (ix : Instruction) : List AccountMeta :=
  unseen m.keys ix.references

def newGroup (m : Message) (ix : Instruction) (writable : Bool) : List Address :=
  (firstSeen (m.newReferences ix)).filter fun a => writes (m.newReferences ix) a = writable

/-- The message with the new addresses in its table and the instruction at its end. -/
def appended (m : Message) (ix : Instruction) : Message :=
  let e := m.extend (m.newGroup ix true) (m.newGroup ix false)
  { e with instructions := e.instructions ++ [ix.indexed e.keys] }

variable {m : Message} {ix : Instruction} {news : List NewAccount}

theorem indexOf?_eq (m : Message) (a : Address) :
    m.indexOf? a = if a ∈ m.keys then some (m.keys.idxOf a) else none := by
  rw [indexOf?, List.findIdx?_eq_guard_findIdx_lt, ← List.idxOf, Option.guard]
  simp only [decide_eq_true_eq, List.idxOf_lt_length_iff]

theorem resolve_eq (m : Message) (ix : Instruction) : m.resolve ix = ix.indexed m.keys := by
  have hidx : ∀ a, (m.indexOf? a).getD m.keys.length = m.keys.idxOf a := by
    intro a
    rw [indexOf?_eq]
    split
    · rfl
    · rename_i h
      exact (List.idxOf_eq_length h).symm
  simp only [resolve, hidx, Instruction.indexed]

section Extend

variable {front back : List Address} (hkeys : m.keys = front ++ back)
  (hback : m.header.readonlyUnsigned.toNat = back.length)
include hkeys hback

theorem insertionPoint_eq : m.insertionPoint = front.length := by
  rw [insertionPoint, hkeys, hback, List.length_append, Nat.add_sub_cancel]

theorem keys_extend (writable readonly : List Address) :
    (m.extend writable readonly).keys = front ++ writable ++ back ++ readonly := by
  rw [extend, insertionPoint_eq hkeys hback, hkeys, List.take_left, List.drop_left]

end Extend

section Enroll

theorem enroll_of_permits {a : AccountMeta} (h : m.permits a = true) :
    m.enroll news a = .ok (if a.address ∈ m.keys then news else NewAccount.refer news a) := by
  unfold permits at h
  unfold enroll
  rw [indexOf?_eq] at h ⊢
  by_cases ha : a.address ∈ m.keys
  · simp only [if_pos ha] at h ⊢
    exact if_pos h
  · simp only [if_neg ha, Bool.not_eq_true'] at h ⊢
    rw [h, if_neg Bool.false_ne_true]

theorem enroll_of_not_permits {a : AccountMeta} (news : List NewAccount)
    (h : m.permits a = false) :
    ∃ f, m.enroll news a = .error f ∧ f.kind = .accountPermission := by
  unfold permits at h
  unfold enroll
  rcases hi : m.indexOf? a.address with _ | i
  · rw [hi] at h
    have hs : a.signer = true := by simpa using h
    exact ⟨_, if_pos hs, rfl⟩
  · rw [hi] at h
    have hg : ¬m.grants i a = true := by
      rw [show m.grants i a = false from h]
      exact Bool.false_ne_true
    exact ⟨_, if_neg hg, rfl⟩

/-- References that the table permits bring in the addresses that are not there. -/
theorem enrollAll_of_permits : ∀ (as refs : List AccountMeta),
    (∀ a ∈ as, m.permits a = true) → m.enrollAll (newlySeen refs).reverse as =
      .ok (newlySeen (refs ++ unseen m.keys as))
  | [], refs, _ => by
    rw [enrollAll, List.reverse_reverse, unseen, List.filter_nil, List.append_nil]
  | a :: as, refs, h => by
    have ih := fun refs => enrollAll_of_permits as refs
      fun b hb => h b (List.mem_cons_of_mem _ hb)
    rw [enrollAll, enroll_of_permits (h a List.mem_cons_self), unseen]
    by_cases ha : a.address ∈ m.keys
    · simp only [if_pos ha, ih]
      rw [List.filter_cons_of_neg (by simpa using ha), unseen]
    · simp only [if_neg ha, refer_newlySeen, ih]
      rw [List.filter_cons_of_pos (by simpa using ha), List.append_assoc, List.singleton_append,
        unseen]

theorem enrollAll_of_not_permits : ∀ {as : List AccountMeta} (news : List NewAccount),
    (∃ a ∈ as, m.permits a = false) →
      ∃ f, m.enrollAll news as = .error f ∧ f.kind = .accountPermission
  | a :: as, news, h => by
    rw [enrollAll]
    rcases hp : m.permits a with _ | _
    · obtain ⟨f, hf, hk⟩ := enroll_of_not_permits news hp
      exact ⟨f, by rw [hf], hk⟩
    · rw [enroll_of_permits hp]
      obtain ⟨b, hb, hpb⟩ := h
      rcases List.mem_cons.1 hb with rfl | hb
      · rw [hp] at hpb
        cases hpb
      · exact enrollAll_of_not_permits _ ⟨b, hb, hpb⟩

end Enroll

theorem Allows.references (h : m.Allows ix) : ∀ a ∈ ix.references, m.permits a = true := by
  intro a ha
  rcases List.mem_append.1 ha with ha | ha
  · exact h a ha
  · rw [List.mem_singleton.1 ha, permits]
    split <;> rfl

theorem enrollAll_of_allows (h : m.Allows ix) :
    m.enrollAll [] ix.references = .ok (newlySeen (m.newReferences ix)) :=
  enrollAll_of_permits _ [] h.references

theorem addresses_newlySeen (refs : List AccountMeta) (writable : Bool) :
    ((newlySeen refs).filter (·.writable == writable)).map (·.address) =
      (firstSeen refs).filter fun a => writes refs a = writable := by
  rw [newlySeen, List.filter_map, List.map_map]
  have hid : ((fun n : NewAccount => n.address) ∘
      fun a => ({ address := a, writable := writes refs a } : NewAccount)) = id := rfl
  rw [hid, List.map_id]
  refine List.filter_congr fun a _ => ?_
  rw [Bool.eq_iff_iff]
  simp

/-- An instruction that asks only for what the table permits is appended to a legacy message if
accounts and size are within their limits. -/
theorem append_eq (hv : m.version = .legacy) (h : m.Allows ix) :
    m.append ix =
      if maxAccounts < m.keys.length + (firstSeen (m.newReferences ix)).length ∨
          255 < m.header.readonlyUnsigned.toNat + (m.newGroup ix false).length then
        .error (.tooManyAccounts (m.keys.length + (firstSeen (m.newReferences ix)).length))
      else (m.appended ix).sizeInPacket.map fun _ => m.appended ix := by
  have hw : _ = m.newGroup ix true := addresses_newlySeen (m.newReferences ix) true
  have hr : _ = m.newGroup ix false := addresses_newlySeen (m.newReferences ix) false
  have hpart : (newlySeen (m.newReferences ix)).partition (·.writable) =
      ((newlySeen (m.newReferences ix)).filter (·.writable == true),
        (newlySeen (m.newReferences ix)).filter (·.writable == false)) := by
    rw [List.partition_eq_filter_filter]
    refine Prod.ext (List.filter_congr fun n _ => ?_) (List.filter_congr fun n _ => ?_)
    · rcases n.writable with _ | _ <;> rfl
    · rw [Function.comp_apply]
      rcases n.writable with _ | _ <;> rfl
  have hlen : (newlySeen (m.newReferences ix)).length =
      (firstSeen (m.newReferences ix)).length := by
    rw [newlySeen, List.length_map]
  have hlenr : ((newlySeen (m.newReferences ix)).filter (·.writable == false)).length =
      (m.newGroup ix false).length := by
    rw [← hr, List.length_map]
  have hjoined : m.joined ix =
      if maxAccounts < m.keys.length + (firstSeen (m.newReferences ix)).length ∨
          255 < m.header.readonlyUnsigned.toNat + (m.newGroup ix false).length then
        .error (.tooManyAccounts (m.keys.length + (firstSeen (m.newReferences ix)).length))
      else .ok (m.appended ix) := by
    unfold joined
    simp only [hv, enrollAll_of_allows h, hpart, hlen, hlenr, hw, hr, resolve_eq]
    rfl
  rw [append, hjoined]
  split_ifs with hlimit
  · rfl
  · dsimp only
    rcases (m.appended ix).sizeInPacket with f | n
    · rfl
    · rfl

theorem append_of_not_allows (hv : m.version = .legacy) (h : ¬m.Allows ix) :
    ∃ f, m.append ix = .error f ∧ f.kind = .accountPermission := by
  have hex : ∃ a ∈ ix.references, m.permits a = false := by
    simp only [Allows, not_forall, Bool.not_eq_true] at h
    obtain ⟨a, ha, hp⟩ := h
    exact ⟨a, List.mem_append_left _ ha, hp⟩
  obtain ⟨f, hf, hk⟩ := enrollAll_of_not_permits [] hex
  refine ⟨f, ?_, hk⟩
  unfold append joined
  simp only [hv, hf]

end Message

end OfflineTx
