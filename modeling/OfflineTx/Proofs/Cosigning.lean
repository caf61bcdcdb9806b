import OfflineTx.Proofs.Runs

/-!
# Signing in parts

Signing fills the slot of an account with what a signer for it answers to the message, and leaves
the slots of the others as they are (`SignedBy`). If all signers answer, and those for one account
alike, this says all there is to know of the result (`SignedBy.unique`), it depends on who signs
and not on the order, and signing by some and then by others is signing by all of them
(`SignedBy.trans`). So it makes no difference how the signers come together (`cosigned`).
-/

namespace OfflineTx

/-- All signers answer the message, and those for one address alike. -/
structure Unanimous (signers : List Signer) (message : Bytes) : Prop where
  answers : ∀ signer ∈ signers, ∃ s, signer.sign message = some s
  alike : ∀ signer ∈ signers, ∀ other ∈ signers, signer.address = other.address →
    signer.sign message = other.sign message

theorem Unanimous.mono {signers others : List Signer} {message : Bytes}
    (h : Unanimous signers message) (hsub : others ⊆ signers) : Unanimous others message where
  answers signer hmem := h.answers signer (hsub hmem)
  alike signer hmem other hother := h.alike signer (hsub hmem) other (hsub hother)

namespace Transaction

variable {t u v : Transaction} {completeness : Completeness} {signers others : List Signer}
  {message : Bytes}

/-- What the signers make of a transaction: the slot of an account holds what a signer for it
answers to the message, and without a signer what it held, which is zero if the slots did not match
the header. -/
structure SignedBy (t : Transaction) (signers : List Signer) (message : Bytes)
    (u : Transaction) : Prop where
  message_eq : u.message = t.message
  length_eq : u.signatures.length = t.message.required
  signed : ∀ (i : Nat) (signer : Signer) (s : Signature), i < t.message.required →
    signer ∈ signers → t.message.keys[i]? = some signer.address → signer.sign message = some s →
      u.signatures[i]? = some s
  kept : ∀ (i : Nat) (a : Address), i < t.message.required → t.message.keys[i]? = some a →
    ¬Covers signers a →
      u.signatures[i]? = if t.slotsMatch then t.signatures[i]? else some (.zero 64)

theorem signedBy_signWith (h : (t.signWith completeness signers).answer = .ok ())
    (henc : t.message.encode = .ok message) (hun : Unanimous signers message) :
    t.SignedBy signers message (t.signWith completeness signers).transaction where
  message_eq := message_signWith
  length_eq := length_of_signWith h
  signed i signer s hi hmem ha hs := by
    rw [getElem?_signWith h henc hi ha]
    have hcovers : Covers signers signer.address := ⟨signer, hmem, rfl⟩
    obtain ⟨found, hfound⟩ := Option.isSome_iff_exists.1 (isSome_find?_iff.2 hcovers)
    have haddress : found.address = signer.address := by simpa using List.find?_some hfound
    rw [hfound, ← hs]
    exact hun.alike found (List.mem_of_find?_eq_some hfound) signer hmem haddress
  kept i a hi ha hnot := by
    rw [getElem?_signWith h henc hi ha, ← getElem?_fitted hi]
    rw [← isSome_find?_iff, Option.not_isSome_iff_eq_none] at hnot
    rw [hnot]

/-- Who signs matters, and not the order. -/
theorem SignedBy.congr (h : t.SignedBy signers message u)
    (hsub : others ⊆ signers) (hsup : signers ⊆ others) : t.SignedBy others message u where
  message_eq := h.message_eq
  length_eq := h.length_eq
  signed i signer s hi hmem := h.signed i signer s hi (hsub hmem)
  kept i a hi ha hnot := h.kept i a hi ha fun hcovers => hnot (hcovers.mono hsup)

/-- Signing by some and then by others is signing by all of them. -/
theorem SignedBy.trans (hun : Unanimous (signers ++ others) message)
    (h : t.SignedBy signers message u) (hu : u.SignedBy others message v) :
    t.SignedBy (signers ++ others) message v := by
  -- The slots match once the first have signed, so what they signed is not made anew.
  have hmatch : u.slotsMatch = true := by
    rw [slotsMatch, h.length_eq, h.message_eq]
    exact beq_self_eq_true _
  have hkept := hu.kept
  have hsigned := hu.signed
  simp only [h.message_eq, hmatch, if_true] at hkept hsigned
  refine ⟨hu.message_eq.trans h.message_eq, ?_, fun i signer s hi hmem ha hs => ?_,
    fun i a hi ha hnot => ?_⟩
  · rw [hu.length_eq, h.message_eq]
  · by_cases hcovers : Covers others signer.address
    -- Another signer for the account signs over the slot, but answers alike.
    · obtain ⟨other, hother, haddress⟩ := hcovers
      have halike := hun.alike other (List.mem_append_right _ hother) signer hmem haddress
      exact hsigned i other s hi hother (haddress ▸ ha) (halike.trans hs)
    · have hfirst : signer ∈ signers := by
        rcases List.mem_append.1 hmem with hmem | hmem
        · exact hmem
        · exact absurd ⟨signer, hmem, rfl⟩ hcovers
      rw [hkept i _ hi ha hcovers]
      exact h.signed i signer s hi hfirst ha hs
  · rw [hkept i a hi ha fun hcovers => hnot (hcovers.mono (List.subset_append_right _ _))]
    exact h.kept i a hi ha fun hcovers => hnot (hcovers.mono (List.subset_append_left _ _))

/-- If all signers answer, there is only one transaction that they make of another. -/
theorem SignedBy.unique (hreq : t.message.required ≤ t.message.keys.length)
    (hans : ∀ signer ∈ signers, ∃ s, signer.sign message = some s)
    (hu : t.SignedBy signers message u) (hv : t.SignedBy signers message v) : u = v := by
  have hslots : u.signatures = v.signatures := by
    refine List.ext_getElem? fun i => ?_
    rcases Nat.lt_or_ge i t.message.required with hi | hi
    · obtain ⟨a, ha⟩ : ∃ a, t.message.keys[i]? = some a :=
        ⟨_, List.getElem?_eq_getElem (Nat.lt_of_lt_of_le hi hreq)⟩
      by_cases hcovers : Covers signers a
      · obtain ⟨signer, hmem, rfl⟩ := hcovers
        obtain ⟨s, hs⟩ := hans signer hmem
        rw [hu.signed i signer s hi hmem ha hs, hv.signed i signer s hi hmem ha hs]
      · rw [hu.kept i a hi ha hcovers, hv.kept i a hi ha hcovers]
    · rw [List.getElem?_eq_none (by rwa [hu.length_eq]),
        List.getElem?_eq_none (by rwa [hv.length_eq])]
  have hmessage := hu.message_eq.trans hv.message_eq.symm
  cases u
  cases v
  exact (Transaction.mk.injEq ..).mpr ⟨hslots, hmessage⟩

/-- If all signers answer, signing succeeds once there are signers enough. -/
theorem answer_signWith (hslots : t.slots completeness signers = .ok (t.row signers))
    (henc : t.message.encode = .ok message)
    (hans : ∀ signer ∈ signers, ∃ s, signer.sign message = some s) :
    (t.signWith completeness signers).answer = .ok () := by
  refine answer_signWith_eq_ok_iff.2 ⟨hslots, message, henc, ?_⟩
  have hreq := (slots_eq_ok_iff.1 hslots).1
  have hlen : (t.row signers).length = t.fitted.signatures.length := by
    rw [row, List.length_map, length_requiredAddresses hreq, length_fitted]
  refine (failed_fill_eq_none_iff 0 _ _ hlen).2 fun slot hslot signer hsigner => ?_
  obtain ⟨a, -, rfl⟩ := List.mem_map.1 hslot
  exact hans signer (List.mem_of_find?_eq_some hsigner)

theorem find?_filter_required {a : Address} (ha : a ∈ t.requiredAddresses) :
    (signers.filter fun signer => signer.address ∈ t.requiredAddresses).find? (·.address == a) =
      signers.find? (·.address == a) := by
  rw [List.find?_filter]
  refine congrArg (signers.find? ·) (funext fun signer => ?_)
  by_cases h : signer.address = a
  · simp [h, ha]
  · simp [h]

theorem slots_filter :
    t.slots completeness (signers.filter fun signer => signer.address ∈ t.requiredAddresses) =
      t.slots completeness signers := by
  have hrow : t.row (signers.filter fun signer => signer.address ∈ t.requiredAddresses) =
      t.row signers := List.map_congr_left fun a ha => by rw [find?_filter_required ha]
  rw [slots_eq, slots_eq, hrow]

/-- Signers for addresses that need not sign make no difference. -/
theorem signWith_filter (t : Transaction) (completeness : Completeness) (signers : List Signer) :
    t.signWith completeness (signers.filter fun signer => signer.address ∈ t.requiredAddresses) =
      t.signWith completeness signers := by
  unfold signWith
  rw [slots_filter]

end Transaction

/-- The call succeeds and leaves the draft with this content. -/
def Reply.Gives (r : Reply Draft Unit) (t : Transaction) : Prop :=
  r.answer = .ok () ∧ r.after.content = t

namespace Draft

variable {d : Draft} {completeness : Completeness} {signers others : List Signer}
  {message : Bytes}

/-- Signers for addresses that need not sign make no difference to the call. -/
theorem signWith_filter (d : Draft) (completeness : Completeness) (signers : List Signer) :
    d.signWith completeness
        (signers.filter fun signer => signer.address ∈ d.content.requiredAddresses) =
      d.signWith completeness signers := by
  rw [signWith_eq, signWith_eq, Transaction.signWith_filter, Transaction.slots_filter]

/-- A call that succeeds makes of the draft what the signers make of it. -/
theorem gives_signWith (hanswer : (d.signWith completeness signers).answer = .ok ())
    (henc : d.content.message.encode = .ok message) (hun : Unanimous signers message) :
    ∃ t, (d.signWith completeness signers).Gives t ∧ d.content.SignedBy signers message t :=
  ⟨_, ⟨hanswer, content_signWith⟩,
    Transaction.signedBy_signWith (answer_signWith completeness d signers ▸ hanswer) henc hun⟩

section Answers

variable (hreq : d.content.message.required ≤ d.content.message.keys.length)
  (henc : d.content.message.encode = .ok message)

include hreq henc

theorem answer_partialSign (hans : ∀ signer ∈ signers, ∃ s, signer.sign message = some s) :
    (d.partialSign signers).answer = .ok () := by
  rw [partialSign, answer_signWith]
  exact Transaction.answer_signWith (Transaction.slots_partly hreq) henc hans

theorem answer_sign_eq_ok_iff (hans : ∀ signer ∈ signers, ∃ s, signer.sign message = some s) :
    (d.sign signers).answer = .ok () ↔ ∀ a ∈ d.content.requiredAddresses, Covers signers a := by
  rw [sign, answer_signWith]
  constructor
  · intro h
    have hslots := (Transaction.answer_signWith_eq_ok_iff.1 h).1
    exact (Transaction.slots_eq_ok_iff.1 hslots).2.1 rfl
  · intro h
    exact Transaction.answer_signWith
      (Transaction.slots_eq_ok_iff.2 ⟨hreq, fun _ => h, rfl⟩) henc hans

/-- Two calls make of the draft what the signers of both make of it. -/
theorem gives_twice (hun : Unanimous (signers ++ others) message) :
    ∃ t, (d.partialSign signers).answer = .ok () ∧
      ((d.partialSign signers).after.partialSign others).Gives t ∧
        d.content.SignedBy (signers ++ others) message t := by
  have hunSigners := hun.mono (List.subset_append_left signers others)
  have hunOthers := hun.mono (List.subset_append_right signers others)
  have hanswer := answer_partialSign hreq henc hunSigners.answers
  obtain ⟨t, ⟨-, rfl⟩, hfirst⟩ := gives_signWith hanswer henc hunSigners
  rw [← hfirst.message_eq] at hreq henc
  obtain ⟨u, hgives, hsecond⟩ :=
    gives_signWith (answer_partialSign hreq henc hunOthers.answers) henc hunOthers
  exact ⟨u, hanswer, hgives, hfirst.trans hun hsecond⟩

end Answers

/-- Signing in full fails for want of the first signer that is missing, and changes nothing. -/
theorem sign_missing (hreq : d.content.message.required ≤ d.content.message.keys.length)
    {before after : List Address} {a : Address}
    (hsplit : d.content.requiredAddresses = before ++ a :: after)
    (hbefore : ∀ b ∈ before, Covers signers b) (ha : ¬Covers signers a) :
    (d.sign signers).answer = .error (.signerMissing a) ∧
      (d.sign signers).after.content = d.content := by
  have hfirst : d.content.uncovered? signers = some a := by
    rw [Transaction.uncovered?, List.find?_eq_some_iff_append]
    refine ⟨?_, before, after, hsplit, fun b hb => ?_⟩
    · rwa [← isSome_find?_iff, Option.not_isSome_iff_eq_none, ← Option.isNone_iff_eq_none] at ha
    · rw [Option.not_isNone]
      exact isSome_find?_iff.2 (hbefore b hb)
  have hslots : d.content.slots .full signers = .error (.signerMissing a) := by
    rw [Transaction.slots_full hreq, hfirst]
  refine ⟨?_, content_signWith.trans ?_⟩
  · simp only [sign, answer_signWith, Transaction.signWith, hslots]
  · simp only [Transaction.signWith, hslots]

/-- Signing by some and by others makes this transaction of the draft, in either order or at once,
and so does signing in full, for which each account that has to sign needs a signer. -/
structure Cosigned (d : Draft) (signers others : List Signer) (message : Bytes)
    (t : Transaction) : Prop where
  signedBy : d.content.SignedBy (signers ++ others) message t
  in_turn : (d.partialSign signers).answer = .ok () ∧
    ((d.partialSign signers).after.partialSign others).Gives t
  in_turn_back : (d.partialSign others).answer = .ok () ∧
    ((d.partialSign others).after.partialSign signers).Gives t
  at_once : (d.partialSign (signers ++ others)).Gives t
  full_iff : (d.sign (signers ++ others)).answer = .ok () ↔
    ∀ a ∈ d.content.requiredAddresses, Covers (signers ++ others) a
  full : (d.sign (signers ++ others)).answer = .ok () → (d.sign (signers ++ others)).Gives t
  missing : ∀ (before : List Address) (a : Address) (after : List Address),
    d.content.requiredAddresses = before ++ a :: after →
      (∀ b ∈ before, Covers (signers ++ others) b) → ¬Covers (signers ++ others) a →
        (d.sign (signers ++ others)).answer = .error (.signerMissing a) ∧
          (d.sign (signers ++ others)).after.content = d.content

/-- If all signers answer the message, and those for one address alike, it makes no difference who
signs first, or whether all sign at once, or who signs that need not. -/
theorem cosigned (hreq : d.content.message.required ≤ d.content.message.keys.length)
    (henc : d.content.message.encode = .ok message)
    (hun : Unanimous (signers ++ others) message) :
    (∃ t, d.Cosigned signers others message t) ∧
      ∀ (completeness : Completeness) (all : List Signer),
        d.signWith completeness
            (all.filter fun signer => signer.address ∈ d.content.requiredAddresses) =
          d.signWith completeness all := by
  refine ⟨?_, d.signWith_filter⟩
  have hswap : ∀ as bs : List Signer, as ++ bs ⊆ bs ++ as :=
    fun _ _ _ h => List.mem_append.2 (List.mem_append.1 h).symm
  have hback : Unanimous (others ++ signers) message := hun.mono (hswap others signers)
  obtain ⟨t, hfirst, hgives, hsigned⟩ := gives_twice hreq henc hun
  obtain ⟨u, hfirst', hgives', hsigned'⟩ := gives_twice hreq henc hback
  obtain ⟨v, hgives'', hsigned''⟩ :=
    gives_signWith (answer_partialSign hreq henc hun.answers) henc hun
  have hunique := fun w (hw : d.content.SignedBy (signers ++ others) message w) =>
    hw.unique hreq hun.answers hsigned
  obtain rfl : u = t := hunique u (hsigned'.congr (hswap _ _) (hswap _ _))
  obtain rfl : v = u := hunique v hsigned''
  refine ⟨v, hsigned, ⟨hfirst, hgives⟩, ⟨hfirst', hgives'⟩, hgives'',
    answer_sign_eq_ok_iff hreq henc hun.answers, fun h => ?_, fun _ _ _ => sign_missing hreq⟩
  obtain ⟨w, hgivesFull, hsignedFull⟩ := gives_signWith h henc hun
  exact hunique w hsignedFull ▸ hgivesFull

/-- Two accounts have to sign, and there are no slots yet. -/
def shared : Draft where
  message := .fresh { header := { required := 2 }, keys := [.padded 32 [1], .padded 32 [2]] }

theorem cosigned_shared :
    let payer : Signer := { address := .padded 32 [1], sign := fun _ => some (.padded 64 [3]) }
    let owner : Signer := { address := .padded 32 [2], sign := fun _ => some (.padded 64 [4]) }
    shared.content.message.encode = .ok shared.content.message.wire ∧
      Unanimous ([owner] ++ [payer]) shared.content.message.wire ∧
      (∃ t, shared.Cosigned [owner] [payer] shared.content.message.wire t) ∧
      ((shared.partialSign [owner]).after.partialSign [payer]).after.signatures =
        [.padded 64 [3], .padded 64 [4]] := by
  intro payer owner
  have hdiffer : payer.address ≠ owner.address := by decide
  have hun : Unanimous ([owner] ++ [payer]) shared.content.message.wire :=
    ⟨by simp [payer, owner], by simp [hdiffer, hdiffer.symm]⟩
  have htwice : ((shared.partialSign [owner]).after.partialSign [payer]).after.content =
      ((shared.content.signWith .partly [owner]).transaction.signWith .partly [payer]).transaction :=
    content_signWith.trans (by rw [partialSign, content_signWith])
  refine ⟨rfl, hun, (cosigned (by decide) rfl hun).1, ?_⟩
  rw [← signatures_content, htwice]
  rfl

end Draft

end OfflineTx
