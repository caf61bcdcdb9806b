import OfflineTx.Draft

/-!
# What signing does to the slots

Filling keeps the number of slots, and a slot that is filled holds what the signer found for it
answered to the message, and any other what it held before (`fill_cases`). Signing stops before any
slot is touched or fills the slots (`signWith_cases`), and if it succeeds the slot of an account
holds what the first signer for it answered (`getElem?_signWith`). So if each slot holds nothing or
what a signer for its account answered to the message as it is, this stays so when more is signed
(`Fresh.signWith`).
-/

namespace OfflineTx

open Signing

section Filling

variable {message : Bytes} {i : Nat} {slot : Slot} {slots : List Slot} {signature s : Signature}
  {signatures : List Signature} {signer : Signer}

section Equations

attribute [local simp] fill

@[simp] theorem fill_nil : fill message i [] signatures = { signatures } := by
  simp

@[simp] theorem fill_nil_right : fill message i slots [] = { signatures := [] } := by
  cases slots <;> simp

theorem fill_skipped (h : slot.signer? = none) :
    fill message i (slot :: slots) (signature :: signatures) =
      { fill message (i + 1) slots signatures with
        signatures := signature :: (fill message (i + 1) slots signatures).signatures } := by
  simp [h]

theorem fill_failed (h : slot.signer? = some signer) (hs : signer.sign message = none) :
    fill message i (slot :: slots) (signature :: signatures) =
      { signatures := signature :: signatures, failed := some slot.address } := by
  simp [h, hs]

theorem fill_filled (h : slot.signer? = some signer) (hs : signer.sign message = some s) :
    fill message i (slot :: slots) (signature :: signatures) =
      { fill message (i + 1) slots signatures with
        signatures := s :: (fill message (i + 1) slots signatures).signatures
        filled := (i, slot.address) :: (fill message (i + 1) slots signatures).filled } := by
  simp [h, hs]

end Equations

theorem length_fill : ∀ (i : Nat) (slots : List Slot) (signatures : List Signature),
    (fill message i slots signatures).signatures.length = signatures.length
  | _, [], _ => by simp
  | _, _ :: _, [] => by simp
  | i, slot :: slots, signature :: signatures => by
    have ih := length_fill (i + 1) slots signatures
    rcases hsigner : slot.signer? with _ | signer
    · simp [fill_skipped hsigner, ih]
    · rcases hs : signer.sign message with _ | s
      · simp [fill_failed hsigner hs]
      · simp [fill_filled hsigner hs, ih]

/-- Filling comes to the end exactly if every signer that was found answers. -/
theorem failed_fill_eq_none_iff : ∀ (i : Nat) (slots : List Slot) (signatures : List Signature),
    slots.length = signatures.length → ((fill message i slots signatures).failed = none ↔
      ∀ slot ∈ slots, ∀ signer, slot.signer? = some signer →
        ∃ s, signer.sign message = some s)
  | _, [], [], _ => by simp
  | i, slot :: slots, signature :: signatures, h => by
    have ih := failed_fill_eq_none_iff (i + 1) slots signatures (Nat.succ.inj h)
    rw [List.forall_mem_cons, ← ih]
    rcases hsigner : slot.signer? with _ | signer
    · simp [fill_skipped hsigner]
    · rcases hs : signer.sign message with _ | s
      · simp [fill_failed hsigner hs, hs]
      · simp [fill_filled hsigner hs, hs]

theorem le_of_mem_filled : ∀ (i : Nat) (slots : List Slot) (signatures : List Signature) {j : Nat},
    j ∈ (fill message i slots signatures).filled.map Prod.fst → i ≤ j
  | _, [], _, _, h => by simp at h
  | _, _ :: _, [], _, h => by simp at h
  | i, slot :: slots, signature :: signatures, j, h => by
    have ih := @le_of_mem_filled (i + 1) slots signatures j
    rcases hsigner : slot.signer? with _ | signer
    · rw [fill_skipped hsigner] at h
      exact Nat.le_of_succ_le (ih h)
    · rcases hs : signer.sign message with _ | s
      · rw [fill_failed hsigner hs] at h
        cases h
      · rw [fill_filled hsigner hs, List.map_cons, List.mem_cons] at h
        rcases h with rfl | h
        · exact Nat.le_refl _
        · exact Nat.le_of_succ_le (ih h)

/-- A slot that was filled holds what its signer answered, and any other what it held. -/
theorem fill_cases (message : Bytes) : ∀ (i : Nat) (slots : List Slot)
    (signatures : List Signature) (k : Nat),
    (i + k ∉ (fill message i slots signatures).filled.map Prod.fst ∧
        (fill message i slots signatures).signatures[k]? = signatures[k]?) ∨
      i + k ∈ (fill message i slots signatures).filled.map Prod.fst ∧
        ∃ slot signer s, slots[k]? = some slot ∧ slot.signer? = some signer ∧
          signer.sign message = some s ∧
          (fill message i slots signatures).signatures[k]? = some s
  | _, [], _, _ => by simp
  | _, _ :: _, [], _ => by simp
  | i, slot :: slots, signature :: signatures, k => by
    have ih := fill_cases message (i + 1) slots signatures
    have hlater := @le_of_mem_filled message (i + 1) slots signatures i
    rcases hsigner : slot.signer? with _ | signer
    · rw [fill_skipped hsigner]
      cases k with
      | zero => exact .inl ⟨fun h => by have := hlater h; omega, rfl⟩
      | succ k => simpa [Nat.add_assoc, Nat.add_comm 1] using ih k
    · rcases hs : signer.sign message with _ | s
      · rw [fill_failed hsigner hs]
        exact .inl ⟨by simp, rfl⟩
      · rw [fill_filled hsigner hs]
        cases k with
        | zero => exact .inr ⟨List.mem_cons_self, slot, signer, s, rfl, hsigner, hs, rfl⟩
        | succ k => simpa [Nat.add_assoc, Nat.add_comm 1] using ih k

/-- After filling, a slot holds what it held or what its signer answered. -/
theorem getElem?_fill (i : Nat) (slots : List Slot) (signatures : List Signature) {k : Nat}
    (h : (fill message i slots signatures).signatures[k]? = some s) :
    signatures[k]? = some s ∨ ∃ slot signer, slots[k]? = some slot ∧
      slot.signer? = some signer ∧ signer.sign message = some s := by
  rcases fill_cases message i slots signatures k with
    ⟨-, hkept⟩ | ⟨-, slot, signer, answered, hslot, hsigner, hs, hheld⟩
  · exact .inl (hkept.symm.trans h)
  · obtain rfl : answered = s := Option.some.inj (hheld.symm.trans h)
    exact .inr ⟨slot, signer, hslot, hsigner, hs⟩

/-- If filling comes to the end, every slot with a signer is filled. -/
theorem mem_filled_of_done : ∀ (i : Nat) (slots : List Slot) (signatures : List Signature)
    {k : Nat}, (fill message i slots signatures).failed = none → slots[k]? = some slot →
      slot.signer? = some signer → k < signatures.length →
        i + k ∈ (fill message i slots signatures).filled.map Prod.fst
  | _, [], _, _, _, hk, _, _ => by simp at hk
  | _, _ :: _, [], _, _, _, _, hlt => absurd hlt (Nat.not_lt_zero _)
  | i, first :: slots, signature :: signatures, k, h, hk, hfound, hlt => by
    have ih := @mem_filled_of_done (i + 1) slots signatures
    rcases hsigner : first.signer? with _ | other
    · rw [fill_skipped hsigner] at h ⊢
      cases k with
      | zero =>
        cases hk
        rw [hsigner] at hfound
        cases hfound
      | succ k =>
        simpa [Nat.add_assoc, Nat.add_comm 1] using ih h hk hfound (Nat.lt_of_succ_lt_succ hlt)
    · rcases hs : other.sign message with _ | s
      · rw [fill_failed hsigner hs] at h
        cases h
      · rw [fill_filled hsigner hs] at h ⊢
        cases k with
        | zero => exact List.mem_cons_self
        | succ k =>
          refine List.mem_cons_of_mem _ ?_
          simpa [Nat.add_assoc, Nat.add_comm 1] using ih h hk hfound (Nat.lt_of_succ_lt_succ hlt)

end Filling

/-- One of the signers is for the address. -/
def Covers (signers : List Signer) (a : Address) : Prop :=
  ∃ signer ∈ signers, signer.address = a

theorem isSome_find?_iff {signers : List Signer} {a : Address} :
    (signers.find? (·.address == a)).isSome = true ↔ Covers signers a := by
  simp [List.find?_isSome, Covers]

theorem Covers.mono {signers others : List Signer} {a : Address} (h : Covers signers a)
    (hsub : signers ⊆ others) : Covers others a := by
  obtain ⟨signer, hmem, haddress⟩ := h
  exact ⟨signer, hsub hmem, haddress⟩

namespace Transaction

variable {t : Transaction} {completeness : Completeness} {signers supplied : List Signer}

/-- The accounts that have to sign. -/
def requiredAddresses (t : Transaction) : List Address :=
  t.message.keys.take t.message.required

/-- The slots with the first signer at hand for each. -/
def row (t : Transaction) (signers : List Signer) : List Slot :=
  t.requiredAddresses.map fun a => { address := a, signer? := signers.find? (·.address == a) }

/-- The first account that has to sign and has no signer at hand. -/
def uncovered? (t : Transaction) (signers : List Signer) : Option Address :=
  t.requiredAddresses.find? fun a => (signers.find? (·.address == a)).isNone

theorem uncovered?_eq_none_iff :
    t.uncovered? signers = none ↔ ∀ a ∈ t.requiredAddresses, Covers signers a := by
  rw [uncovered?, List.find?_eq_none]
  refine forall₂_congr fun a _ => ?_
  rw [← isSome_find?_iff]
  cases signers.find? (·.address == a) <;> simp

theorem slots_eq : t.slots completeness signers =
    if t.message.keys.length < t.message.required then
      .error (.signersExceedKeys t.message.keys.length t.message.required)
    else
      match completeness, (t.row signers).find? (·.signer?.isNone) with
      | .full, some slot => .error (.signerMissing slot.address)
      | _, _ => .ok (t.row signers) :=
  rfl

section Slots

variable (hreq : t.message.required ≤ t.message.keys.length)

include hreq

theorem length_requiredAddresses : t.requiredAddresses.length = t.message.required := by
  rw [requiredAddresses, List.length_take, Nat.min_eq_left hreq]

theorem slots_partly : t.slots .partly signers = .ok (t.row signers) := by
  rw [slots_eq, if_neg (Nat.not_lt.2 hreq)]

theorem slots_full : t.slots .full signers = match t.uncovered? signers with
    | some a => .error (.signerMissing a)
    | none => .ok (t.row signers) := by
  have hfind : (t.row signers).find? (·.signer?.isNone) = (t.uncovered? signers).map fun a =>
      { address := a, signer? := signers.find? (·.address == a) } := by
    rw [row, List.find?_map]
    rfl
  rw [slots_eq, if_neg (Nat.not_lt.2 hreq), hfind]
  cases t.uncovered? signers with
  | none => rfl
  | some a => rfl

end Slots

theorem slots_eq_ok_iff {slots : List Slot} : t.slots completeness signers = .ok slots ↔
    t.message.required ≤ t.message.keys.length ∧
      (completeness = .full → ∀ a ∈ t.requiredAddresses, Covers signers a) ∧
      slots = t.row signers := by
  by_cases hreq : t.message.required ≤ t.message.keys.length
  · cases completeness with
    | partly => simp [slots_partly hreq, hreq, eq_comm]
    | full =>
      rw [slots_full hreq, ← uncovered?_eq_none_iff]
      cases t.uncovered? signers with
      | none => simp [hreq, eq_comm]
      | some a => simp
  · rw [slots_eq, if_pos (Nat.not_le.1 hreq)]
    simp [hreq]

/-- The transaction with slots that match its header. -/
def fitted (t : Transaction) : Transaction :=
  if t.slotsMatch then t else t.resetSlots

theorem fitted_of_length (h : t.signatures.length = t.message.required) : t.fitted = t :=
  if_pos (by simpa [slotsMatch] using h)

theorem length_fitted : t.fitted.signatures.length = t.message.required := by
  unfold fitted
  split
  · rename_i h
    simpa [slotsMatch] using h
  · exact length_zeroSlots _

theorem message_fitted : t.fitted.message = t.message := by
  unfold fitted
  split
  · rfl
  · rfl

/-- What comes of filling the slots. -/
def filling (t : Transaction) (message : Bytes) (signers : List Signer) : Signing :=
  fill message 0 (t.row signers) t.fitted.signatures

theorem length_filling {message : Bytes} :
    (t.filling message signers).signatures.length = t.message.required :=
  (length_fill ..).trans length_fitted

theorem signWith_eq {message : Bytes}
    (hslots : t.slots completeness signers = .ok (t.row signers))
    (henc : t.message.encode = .ok message) :
    t.signWith completeness signers =
      { answer := match (t.filling message signers).failed with
          | some a => .error (.signingFailed a)
          | none => .ok ()
        transaction :=
          { signatures := (t.filling message signers).signatures, message := t.message }
        filled := (t.filling message signers).filled } := by
  rw [← message_fitted]
  unfold signWith
  rw [hslots]
  simp only [henc]
  rfl

/-- Signing stops before any slot is touched, or fills the slots. -/
theorem signWith_cases (t : Transaction) (completeness : Completeness) (signers : List Signer) :
    (∃ f, t.signWith completeness signers =
        { answer := .error f, transaction := t, filled := [] }) ∨
      ∃ message, t.slots completeness signers = .ok (t.row signers) ∧
        t.message.encode = .ok message := by
  rcases hslots : t.slots completeness signers with f | slots
  · exact .inl ⟨f, by rw [signWith, hslots]⟩
  · rcases henc : t.message.encode with f | message
    · exact .inl ⟨f, by rw [signWith, hslots, henc]⟩
    · obtain ⟨-, -, rfl⟩ := slots_eq_ok_iff.1 hslots
      exact .inr ⟨message, rfl, rfl⟩

theorem message_signWith : (t.signWith completeness signers).transaction.message = t.message := by
  rcases t.signWith_cases completeness signers with ⟨f, h⟩ | ⟨message, hslots, henc⟩
  · rw [h]
  · rw [signWith_eq hslots henc]

/-- Signing fills slots and makes none. -/
theorem length_signWith (hlen : t.signatures.length = t.message.required) :
    (t.signWith completeness signers).transaction.signatures.length = t.message.required := by
  rcases t.signWith_cases completeness signers with ⟨f, h⟩ | ⟨message, hslots, henc⟩
  · rwa [h]
  · rw [signWith_eq hslots henc]
    exact length_filling

/-- Signing succeeds if it comes to the end, which it only tries with a slot for each account that
has to sign. -/
theorem answer_signWith_eq_ok_iff : (t.signWith completeness signers).answer = .ok () ↔
    t.slots completeness signers = .ok (t.row signers) ∧ ∃ message,
      t.message.encode = .ok message ∧ (t.filling message signers).failed = none := by
  constructor
  · intro hok
    rcases t.signWith_cases completeness signers with ⟨f, h⟩ | ⟨message, hslots, henc⟩
    · rw [h] at hok
      cases hok
    · refine ⟨hslots, message, henc, ?_⟩
      rw [signWith_eq hslots henc] at hok
      dsimp only at hok
      split at hok
      · cases hok
      · rename_i hfailed
        exact hfailed
  · rintro ⟨hslots, message, henc, hfailed⟩
    rw [signWith_eq hslots henc, hfailed]

section Slot

variable {message : Bytes} {i : Nat} {a : Address}

theorem getElem?_fitted (hi : i < t.message.required) :
    t.fitted.signatures[i]? = if t.slotsMatch then t.signatures[i]? else some (.zero 64) := by
  unfold fitted
  split
  · rfl
  · simp [resetSlots, zeroSlots, hi]

theorem getElem?_row (hi : i < t.message.required) (ha : t.message.keys[i]? = some a) :
    (t.row signers)[i]? =
      some { address := a, signer? := signers.find? (·.address == a) } := by
  rw [row, List.getElem?_map, requiredAddresses, List.getElem?_take_of_lt hi, ha]
  rfl

/-- A slot has the address of its account and a signer that was supplied for it. -/
theorem slot_of_row {slot : Slot} (h : (t.row signers)[i]? = some slot) :
    t.message.keys[i]? = some slot.address ∧
      ∀ signer, slot.signer? = some signer → signer ∈ signers ∧ signer.address = slot.address := by
  rw [row, List.getElem?_map, Option.map_eq_some_iff] at h
  obtain ⟨a, ha, rfl⟩ := h
  refine ⟨?_, fun signer hfind => ?_⟩
  · rw [requiredAddresses, List.getElem?_take] at ha
    split at ha
    · exact ha
    · cases ha
  · exact ⟨List.mem_of_find?_eq_some hfind, by simpa using List.find?_some hfind⟩

/-- After signing that succeeded, the slot of an account holds what the first signer for it answers,
or without a signer what it held. -/
theorem getElem?_signWith (h : (t.signWith completeness signers).answer = .ok ())
    (henc : t.message.encode = .ok message) (hi : i < t.message.required)
    (ha : t.message.keys[i]? = some a) :
    (t.signWith completeness signers).transaction.signatures[i]? =
      match signers.find? (·.address == a) with
      | some signer => signer.sign message
      | none => t.fitted.signatures[i]? := by
  obtain ⟨hslots, bs, hbs, hdone⟩ := answer_signWith_eq_ok_iff.1 h
  obtain rfl : bs = message := Except.ok.inj (hbs.symm.trans henc)
  rw [signWith_eq hslots henc]
  change (t.filling bs signers).signatures[i]? = _
  have hrow : (t.row signers)[i]? = some _ := getElem?_row hi ha
  have hcases := fill_cases bs 0 (t.row signers) t.fitted.signatures i
  rcases hfind : signers.find? (·.address == a) with _ | signer
  · rw [hfind] at hrow ⊢
    rcases hcases with ⟨-, hkept⟩ | ⟨-, slot, signer, s, hslot, hsigner, -, -⟩
    · exact hkept
    · rw [hrow] at hslot
      cases hslot
      cases hsigner
  · rw [hfind] at hrow ⊢
    have hmem := mem_filled_of_done 0 _ _ hdone hrow rfl (by rwa [length_fitted])
    rcases hcases with ⟨hnot, -⟩ | ⟨-, slot, found, s, hslot, hfound, hs, hheld⟩
    · exact absurd hmem hnot
    · rw [hrow] at hslot
      cases hslot
      cases hfound
      exact hheld.trans hs.symm

theorem length_of_signWith (h : (t.signWith completeness signers).answer = .ok ()) :
    (t.signWith completeness signers).transaction.signatures.length = t.message.required := by
  obtain ⟨hslots, message, henc, -⟩ := answer_signWith_eq_ok_iff.1 h
  rw [signWith_eq hslots henc]
  exact length_filling

end Slot

/-- There are as many slots as the message requires, and each is zero or holds what a signer that
was supplied for its account answered to the message as it is. -/
structure Fresh (supplied : List Signer) (t : Transaction) : Prop where
  length_eq : t.signatures.length = t.message.required
  slot : ∀ (i : Nat) (s : Signature), t.signatures[i]? = some s → s = .zero 64 ∨
    ∃ signer ∈ supplied, t.message.keys[i]? = some signer.address ∧
      ∃ bs, t.message.encode = .ok bs ∧ signer.sign bs = some s

theorem Fresh.mono {more : List Signer} (h : t.Fresh supplied) (hsub : supplied ⊆ more) :
    t.Fresh more where
  length_eq := h.length_eq
  slot _ _ hs := by
    rcases h.slot _ _ hs with hzero | ⟨signer, hmem, hsigner⟩
    · exact .inl hzero
    · exact .inr ⟨signer, hsub hmem, hsigner⟩

theorem fresh_zeroSlots (supplied : List Signer) (m : Message) :
    Fresh supplied { signatures := zeroSlots m, message := m } where
  length_eq := length_zeroSlots m
  slot _ _ hs := .inl (List.eq_of_mem_replicate (List.mem_of_getElem? hs))

/-- Whatever comes of signing, a slot that was filled holds an answer to the message. -/
theorem Fresh.signWith (h : t.Fresh supplied) (completeness : Completeness)
    (signers : List Signer) :
    (t.signWith completeness signers).transaction.Fresh (supplied ++ signers) := by
  have hold := h.mono (List.subset_append_left supplied signers)
  refine ⟨by rw [message_signWith, length_signWith h.length_eq], ?_⟩
  rcases t.signWith_cases completeness signers with ⟨f, heq⟩ | ⟨message, hslots, henc⟩
  · rw [heq]
    exact hold.slot
  · rw [signWith_eq hslots henc]
    intro i s hs
    rcases getElem?_fill _ _ _ hs with hs | ⟨slot, signer, hslot, hsigner, hsign⟩
    · rw [fitted_of_length h.length_eq] at hs
      exact hold.slot i s hs
    · obtain ⟨hkey, hfound⟩ := slot_of_row hslot
      obtain ⟨hmem, haddr⟩ := hfound signer hsigner
      exact .inr ⟨signer, List.mem_append_right _ hmem, by rw [haddr, hkey], message, henc, hsign⟩

end Transaction

end OfflineTx
