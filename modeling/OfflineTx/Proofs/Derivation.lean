import OfflineTx.Derivation

/-!
# Derivations agree

The seeds are checked first, alike for every call, and then only matter as the bytes that they are
put together (`answer_congr`). With a bump the address is the digest of those bytes and the bump, if
that is off the curve (`answer_create`). A search finds the largest bump of which this is so
(`searchBelow_eq_some_iff`), so it agrees with the calls that are given a bump (`Exact`). What is
kept of a row of calls is the answer of the last that succeeded (`value_runAll`).
-/

namespace OfflineTx

namespace Derivation

variable {seeds : List Bytes} {program : Address} {bump : UInt8}

/-- Seeds that may be used: not too many, and none too long. -/
structure Admissible (seeds : List Bytes) : Prop where
  length_le : seeds.length ≤ maxSeeds
  seed_le : ∀ seed ∈ seeds, seed.length ≤ maxSeedLength

theorem checkSeeds_eq_ok_iff : checkSeeds seeds = .ok () ↔ Admissible seeds := by
  unfold checkSeeds
  split
  · rename_i h
    simp only [reduceCtorEq, false_iff]
    exact fun hadm => absurd hadm.length_le (Nat.not_le.2 h)
  · rename_i h
    split
    · rename_i i hi
      obtain ⟨hlt, hlong, -⟩ := List.findIdx?_eq_some_iff_getElem.1 hi
      simp only [reduceCtorEq, false_iff]
      intro hadm
      have hle := hadm.seed_le _ (List.getElem_mem hlt)
      simp only [decide_eq_true_eq] at hlong
      omega
    · rename_i hnone
      simp only [true_iff]
      refine ⟨Nat.not_lt.1 h, fun seed hmem => ?_⟩
      simpa using List.findIdx?_eq_none_iff.1 hnone seed hmem

theorem checkSeeds_tooMany (h : maxSeeds < seeds.length) :
    FailsFor (checkSeeds seeds) .tooManySeeds := by
  rw [checkSeeds, if_pos h]
  exact failsFor_error.2 rfl

theorem checkSeeds_tooLong (h : seeds.length ≤ maxSeeds) {seed : Bytes} (hmem : seed ∈ seeds)
    (hlong : maxSeedLength < seed.length) : FailsFor (checkSeeds seeds) .seedTooLong := by
  rw [checkSeeds, if_neg (Nat.not_lt.2 h)]
  split
  · exact failsFor_error.2 rfl
  · rename_i hnone
    have hle := List.findIdx?_eq_none_iff.1 hnone seed hmem
    simp only [decide_eq_false_iff_not] at hle
    exact absurd hlong hle

/-- What an address is derived from the seeds with a bump, on the curve or off it. -/
def bumped (seeds : List Bytes) (bump : UInt8) (program : Address) : Address :=
  Sha256.digest (seeds.flatten ++ [bump] ++ program.bytes ++ marker)

theorem digest_bumped : digest (seeds ++ [[bump]]) program = bumped seeds bump program := by
  rw [digest, bumped, List.flatten_append]
  rfl

theorem offCurve?_eq_some_iff {a : Address} : offCurve? seeds program = some a ↔
    Curve.isPoint (digest seeds program) = false ∧ a = digest seeds program := by
  unfold offCurve?
  dsimp only
  split
  · rename_i h
    rw [h]
    exact ⟨nofun, fun h' => nomatch h'.1⟩
  · rename_i h
    rw [Bool.not_eq_true] at h
    exact ⟨fun h' => ⟨h, (Option.some.inj h').symm⟩, fun h' => congrArg some h'.2.symm⟩

theorem offCurve?_eq_none_iff :
    offCurve? seeds program = none ↔ Curve.isPoint (digest seeds program) = true := by
  unfold offCurve?
  dsimp only
  split
  · rename_i h
    exact ⟨fun _ => h, fun _ => rfl⟩
  · rename_i h
    exact ⟨nofun, fun h' => absurd h' h⟩

section Search

variable {n : Nat}

theorem eq_toUInt8 (h : bump.toNat = n) : bump = n.toUInt8 := by
  subst h
  exact UInt8.ofNat_toNat.symm

-- Lean would unfold the digest to see whether it is found off the curve.
attribute [local irreducible] offCurve?

theorem searchBelow_zero : searchBelow seeds program 0 = none :=
  rfl

theorem searchBelow_succ : searchBelow seeds program (n + 1) =
    match offCurve? (seeds ++ [[n.toUInt8]]) program with
    | some a => some (a, n.toUInt8)
    | none => searchBelow seeds program n :=
  rfl

/-- The search finds the largest bump below `n` whose address is off the curve. -/
theorem searchBelow_eq_some_iff {a : Address} (hn : n ≤ 256) :
    searchBelow seeds program n = some (a, bump) ↔
      bump.toNat < n ∧ offCurve? (seeds ++ [[bump]]) program = some a ∧
        ∀ c : UInt8, bump < c → c.toNat < n → offCurve? (seeds ++ [[c]]) program = none := by
  induction n with
  | zero => simp [searchBelow_zero]
  | succ n ih =>
    have ih := ih (by omega)
    have hlast : n.toUInt8.toNat = n := UInt8.toNat_ofNat_of_lt' (Nat.lt_of_succ_le hn)
    rw [searchBelow_succ]
    -- The bump `n` comes before all others: it is found, or is none of those that matter.
    rcases hoff : offCurve? (seeds ++ [[n.toUInt8]]) program with _ | found
    · dsimp only
      rw [ih]
      constructor
      · rintro ⟨hlt, hb, habove⟩
        refine ⟨by omega, hb, fun c hc hcn => ?_⟩
        by_cases hcn' : c.toNat = n
        · rw [eq_toUInt8 hcn', hoff]
        · exact habove c hc (by omega)
      · rintro ⟨hlt, hb, habove⟩
        have hne : bump.toNat ≠ n := by
          intro h
          rw [eq_toUInt8 h, hoff] at hb
          cases hb
        exact ⟨by omega, hb, fun c hc hcn => habove c hc (by omega)⟩
    · dsimp only
      rw [Option.some.injEq, Prod.mk.injEq]
      constructor
      · rintro ⟨rfl, rfl⟩
        refine ⟨by omega, hoff, fun c hc hcn => ?_⟩
        rw [UInt8.lt_iff_toNat_lt] at hc
        omega
      · rintro ⟨hlt, hb, habove⟩
        have hle : ¬bump < n.toUInt8 := by
          intro h
          rw [habove _ h (by omega)] at hoff
          cases hoff
        rw [UInt8.lt_iff_toNat_lt] at hle
        obtain rfl := eq_toUInt8 (show bump.toNat = n by omega)
        exact ⟨Option.some.inj (hoff.symm.trans hb), rfl⟩

theorem searchBelow_eq_none_iff (hn : n ≤ 256) :
    searchBelow seeds program n = none ↔
      ∀ b : UInt8, b.toNat < n → offCurve? (seeds ++ [[b]]) program = none := by
  induction n with
  | zero => simp [searchBelow_zero]
  | succ n ih =>
    have ih := ih (by omega)
    have hlast : n.toUInt8.toNat = n := UInt8.toNat_ofNat_of_lt' (Nat.lt_of_succ_le hn)
    rw [searchBelow_succ]
    rcases hoff : offCurve? (seeds ++ [[n.toUInt8]]) program with _ | found
    · dsimp only
      rw [ih]
      constructor
      · intro h b hb
        by_cases hbn : b.toNat = n
        · rw [eq_toUInt8 hbn, hoff]
        · exact h b (by omega)
      · exact fun h b hb => h b (by omega)
    · dsimp only
      simp only [reduceCtorEq, false_iff]
      intro h
      rw [h _ (by omega)] at hoff
      cases hoff

end Search

/-- The address with this bump is off the curve. -/
def OffCurve (seeds : List Bytes) (program : Address) (bump : UInt8) : Prop :=
  Curve.isPoint (bumped seeds bump program) = false

theorem offCurve?_bumped_eq_some_iff {a : Address} :
    offCurve? (seeds ++ [[bump]]) program = some a ↔
      OffCurve seeds program bump ∧ a = bumped seeds bump program := by
  rw [offCurve?_eq_some_iff, digest_bumped, OffCurve]

theorem offCurve?_bumped_eq_none_iff :
    offCurve? (seeds ++ [[bump]]) program = none ↔ ¬OffCurve seeds program bump := by
  rw [offCurve?_eq_none_iff, digest_bumped, OffCurve, Bool.not_eq_false]

end Derivation

namespace DerivedAddress

open OfflineTx.Derivation

variable {call : Call} {seeds other : List Bytes} {program : Address} {bump : UInt8}
  {found : DerivedAddress}

theorem answer_of_error {f : Fault} (h : checkSeeds seeds = .error f) :
    answer call seeds program = .error f := by
  cases call with
  | find => simp only [answer, find, h, Except.map]
  | create bump => simp only [answer, create, h, Except.map]
  | createWithSeeds => simp only [answer, createWithSeeds, h, Except.map]

/-- Whatever is wrong with the seeds is what the call fails for. -/
theorem failsFor_answer {kind : FaultKind} (h : FailsFor (checkSeeds seeds) kind) (call : Call)
    (program : Address) : FailsFor (answer call seeds program) kind := by
  obtain ⟨f, hf, hkind⟩ := h
  exact ⟨f, answer_of_error hf, hkind⟩

section Admissible

variable (hadm : Admissible seeds)

include hadm

theorem answer_find : answer .find seeds program =
    match searchBelow seeds program 256 with
    | some (a, b) => .ok { address := a, bump := b }
    | none => .error (.bumpsExhausted program) := by
  rw [answer, find, checkSeeds_eq_ok_iff.2 hadm]
  cases searchBelow seeds program 256 with
  | some found => rfl
  | none => rfl

theorem answer_create : answer (.create bump) seeds program =
    match offCurve? (seeds ++ [[bump]]) program with
    | some a => .ok { address := a, bump := bump }
    | none => .error (.onCurve (some bump)) := by
  rw [answer, create, checkSeeds_eq_ok_iff.2 hadm]
  cases offCurve? (seeds ++ [[bump]]) program with
  | some a => rfl
  | none => rfl

theorem answer_createWithSeeds : answer .createWithSeeds seeds program =
    match offCurve? seeds program with
    | some a => .ok { address := a, bump := 0 }
    | none => .error (.onCurve none) := by
  rw [answer, createWithSeeds, checkSeeds_eq_ok_iff.2 hadm]
  cases offCurve? seeds program with
  | some a => rfl
  | none => rfl

/-- A search succeeds with the largest bump whose address is off the curve, and that address. -/
theorem answer_find_eq_ok_iff : answer .find seeds program = .ok found ↔
    OffCurve seeds program found.bump ∧ found.address = bumped seeds found.bump program ∧
      ∀ b, found.bump < b → ¬OffCurve seeds program b := by
  rw [answer_find hadm]
  constructor
  · intro h
    split at h
    · rename_i a b hsearch
      cases h
      obtain ⟨-, hb, habove⟩ := (searchBelow_eq_some_iff (Nat.le_refl 256)).1 hsearch
      obtain ⟨hoff, ha⟩ := offCurve?_bumped_eq_some_iff.1 hb
      exact ⟨hoff, ha, fun c hc => offCurve?_bumped_eq_none_iff.1 (habove c hc c.toNat_lt)⟩
    · cases h
  · rintro ⟨hoff, ha, habove⟩
    have hsearch : searchBelow seeds program 256 = some (found.address, found.bump) :=
      (searchBelow_eq_some_iff (Nat.le_refl 256)).2 ⟨found.bump.toNat_lt,
        offCurve?_bumped_eq_some_iff.2 ⟨hoff, ha⟩,
        fun c hc _ => offCurve?_bumped_eq_none_iff.2 (habove c hc)⟩
    rw [hsearch]

theorem exists_answer_find : (∃ found, answer .find seeds program = .ok found) ↔
    ∃ b, OffCurve seeds program b := by
  constructor
  · rintro ⟨found, h⟩
    exact ⟨found.bump, ((answer_find_eq_ok_iff hadm).1 h).1⟩
  · rintro ⟨b, hb⟩
    rw [answer_find hadm]
    rcases hsearch : searchBelow seeds program 256 with _ | ⟨a, c⟩
    · have hnone := (searchBelow_eq_none_iff (Nat.le_refl 256)).1 hsearch b b.toNat_lt
      exact absurd hb (offCurve?_bumped_eq_none_iff.1 hnone)
    · exact ⟨_, rfl⟩

theorem answer_create_of_offCurve (h : OffCurve seeds program bump) :
    answer (.create bump) seeds program =
      .ok { address := bumped seeds bump program, bump := bump } := by
  rw [answer_create hadm, offCurve?_bumped_eq_some_iff.2 ⟨h, rfl⟩]

theorem answer_create_of_not_offCurve (h : ¬OffCurve seeds program bump) :
    FailsFor (answer (.create bump) seeds program) .onCurve := by
  rw [answer_create hadm, offCurve?_bumped_eq_none_iff.2 h]
  exact failsFor_error.2 rfl

end Admissible

section Joined

variable (h : other.flatten = seeds.flatten)

include h

theorem offCurve?_congr (tail : List Bytes) :
    offCurve? (other ++ tail) program = offCurve? (seeds ++ tail) program := by
  have hdigest : digest (other ++ tail) program = digest (seeds ++ tail) program := by
    rw [digest, digest, List.flatten_append, List.flatten_append, h]
  rw [offCurve?, offCurve?, hdigest]

theorem searchBelow_congr (n : Nat) :
    searchBelow other program n = searchBelow seeds program n := by
  induction n with
  | zero => rfl
  | succ n ih => rw [searchBelow_succ, searchBelow_succ, offCurve?_congr h, ih]

/-- Of seeds that may be used, only the bytes that they are put together matter. -/
theorem answer_congr (hadm : Admissible seeds) (hother : Admissible other) (call : Call) :
    answer call other program = answer call seeds program := by
  cases call with
  | find => rw [answer_find hadm, answer_find hother, searchBelow_congr h]
  | create bump => rw [answer_create hadm, answer_create hother, offCurve?_congr h]
  | createWithSeeds =>
    have hoff : offCurve? (other ++ []) program = offCurve? (seeds ++ []) program :=
      offCurve?_congr h []
    rw [List.append_nil, List.append_nil] at hoff
    rw [answer_createWithSeeds hadm, answer_createWithSeeds hother, hoff]

end Joined

/-- The address, or the kind of fault. -/
def verdict : Except Fault DerivedAddress → Except FaultKind Address
  | .ok found => .ok found.address
  | .error f => .error f.kind

theorem verdict_of_failsFor {kind : FaultKind} {answer : Except Fault DerivedAddress}
    (h : FailsFor answer kind) : verdict answer = .error kind := by
  obtain ⟨f, rfl, rfl⟩ := h
  rfl

/-- The bump is a last seed of one byte. -/
theorem verdict_create (hlen : seeds.length < maxSeeds) (bump : UInt8) :
    verdict (answer (.create bump) seeds program) =
      verdict (answer .createWithSeeds (seeds ++ [[bump]]) program) := by
  have hlen' : (seeds ++ [[bump]]).length ≤ maxSeeds := by
    rw [List.length_append, List.length_singleton]
    exact hlen
  by_cases hlong : ∃ seed ∈ seeds, maxSeedLength < seed.length
  · obtain ⟨seed, hmem, hlong⟩ := hlong
    have hfails := checkSeeds_tooLong (Nat.le_of_lt hlen) hmem hlong
    have hfails' := checkSeeds_tooLong hlen' (List.mem_append_left _ hmem) hlong
    rw [verdict_of_failsFor (failsFor_answer hfails _ _),
      verdict_of_failsFor (failsFor_answer hfails' _ _)]
  · have hshort : ∀ seed ∈ seeds, seed.length ≤ maxSeedLength :=
      fun seed hmem => Nat.not_lt.1 fun h => hlong ⟨seed, hmem, h⟩
    have hadm' : Admissible (seeds ++ [[bump]]) := by
      refine ⟨hlen', fun seed hmem => ?_⟩
      rcases List.mem_append.1 hmem with hmem | hmem
      · exact hshort seed hmem
      · rw [List.mem_singleton.1 hmem]
        exact (by decide : 1 ≤ maxSeedLength)
    rw [answer_create ⟨Nat.le_of_lt hlen, hshort⟩, answer_createWithSeeds hadm']
    cases offCurve? (seeds ++ [[bump]]) program with
    | some a => rfl
    | none => rfl

/-- What the calls answer to these seeds, and how their answers agree. -/
structure Exact (seeds : List Bytes) (program : Address) : Prop where
  tooMany : maxSeeds < seeds.length →
    ∀ call, FailsFor (answer call seeds program) .tooManySeeds
  tooLong : seeds.length ≤ maxSeeds → ∀ seed ∈ seeds, maxSeedLength < seed.length →
    ∀ call, FailsFor (answer call seeds program) .seedTooLong
  succeeds : Admissible seeds →
    ((∃ found, answer .find seeds program = .ok found) ↔ ∃ b, OffCurve seeds program b)
  largest : Admissible seeds → ∀ found, answer .find seeds program = .ok found →
    found.address = bumped seeds found.bump program ∧ OffCurve seeds program found.bump ∧
      ∀ b, found.bump < b → ¬OffCurve seeds program b
  created : Admissible seeds → ∀ found, answer .find seeds program = .ok found →
    answer (.create found.bump) seeds program = .ok found ∧
      ∀ b, found.bump < b → FailsFor (answer (.create b) seeds program) .onCurve
  appended : seeds.length < maxSeeds → ∀ b, verdict (answer (.create b) seeds program) =
    verdict (answer .createWithSeeds (seeds ++ [[b]]) program)
  joined : Admissible seeds → ∀ other, Admissible other → other.flatten = seeds.flatten →
    ∀ call, answer call other program = answer call seeds program

theorem exact_answers (seeds : List Bytes) (program : Address) : Exact seeds program where
  tooMany hmany call := failsFor_answer (checkSeeds_tooMany hmany) call program
  tooLong hle _ hmem hlong call := failsFor_answer (checkSeeds_tooLong hle hmem hlong) call program
  succeeds hadm := exists_answer_find hadm
  largest hadm found h := by
    obtain ⟨hoff, haddress, habove⟩ := (answer_find_eq_ok_iff hadm).1 h
    exact ⟨haddress, hoff, habove⟩
  created hadm found h := by
    obtain ⟨hoff, haddress, habove⟩ := (answer_find_eq_ok_iff hadm).1 h
    refine ⟨?_, fun b hb => answer_create_of_not_offCurve hadm (habove b hb)⟩
    rw [answer_create_of_offCurve hadm hoff, ← haddress]
  appended hlen b := verdict_create hlen b
  joined hadm _ hother h call := answer_congr h hadm hother call

/-- A call with its seeds and the program. -/
structure Request where
  call : Call
  seeds : List Bytes
  program : Address

def Request.answer (r : Request) : Except Fault DerivedAddress :=
  DerivedAddress.answer r.call r.seeds r.program

/-- The address after a row of calls, whatever is answered to them. -/
def runAll (requests : List Request) (a : Tracked DerivedAddress) : Tracked DerivedAddress :=
  requests.foldl (fun a r => (run r.call r.seeds r.program a).2) a

/-- What the calls that succeed answer, in order. -/
def successes (requests : List Request) : List DerivedAddress :=
  requests.filterMap fun r => r.answer.toOption

theorem value_run (r : Request) (a : Tracked DerivedAddress) :
    (run r.call r.seeds r.program a).2.value = r.answer.toOption.getD a.value := by
  rw [run_eq, Request.answer]
  cases DerivedAddress.answer r.call r.seeds r.program with
  | ok found => rfl
  | error f => rfl

/-- After a row of calls there is what the last that succeeded answered. -/
theorem value_runAll : ∀ (requests : List Request) (a : Tracked DerivedAddress),
    (runAll requests a).value = (successes requests).getLast?.getD a.value
  | [], _ => rfl
  | r :: requests, a => by
    have ih := value_runAll requests (run r.call r.seeds r.program a).2
    rw [value_run] at ih
    change (runAll requests (run r.call r.seeds r.program a).2).value = _
    rw [ih, successes, successes, List.filterMap_cons]
    cases r.answer with
    | ok found => simp [Except.toOption, List.getLast?_cons]
    | error f => rfl

theorem successes_append_of_error {requests : List Request} {r : Request} {f : Fault}
    (h : r.answer = .error f) : successes (requests ++ [r]) = successes requests := by
  rw [successes, List.filterMap_append, List.filterMap_cons, h]
  exact List.append_nil _

/-- The calls agree on all seeds, and a row of them leaves the address and the bump of the last that
succeeded, which one that fails does not change. -/
theorem exact_runAll (requests : List Request) :
    (∀ seeds program, Exact seeds program) ∧
      (runAll requests (.fresh .initial)).value = (successes requests).getLast?.getD .initial ∧
      ∀ (r : Request) (f : Fault), r.answer = .error f →
        (runAll (requests ++ [r]) (.fresh .initial)).value =
          (runAll requests (.fresh .initial)).value := by
  refine ⟨exact_answers, value_runAll requests _, fun r f h => ?_⟩
  rw [value_runAll, value_runAll, successes_append_of_error h]

/-- The largest bump gives a point of the curve, and the one below it does not. A search with a seed
too many changes nothing. -/
theorem exact_runAll_second :
    let search : Request := { call := .find, seeds := [[0]], program := .zero 32 }
    ∃ found, search.answer = .ok found ∧ found.bump = 254 ∧
      answer (.create 254) [[0]] (.zero 32) = .ok found ∧
      FailsFor (answer (.create 255) [[0]] (.zero 32)) .onCurve ∧
      (runAll [search, { search with seeds := .replicate 17 [] }] (.fresh .initial)).value =
        found := by
  intro search
  obtain ⟨hexact, hvalue, hkept⟩ := exact_runAll [search]
  have hadm : Admissible [[0]] := ⟨by decide, by decide⟩
  have hbump : search.answer.toOption.map bump = some 254 := by decide +kernel
  rcases hanswer : search.answer with f | found
  · rw [hanswer] at hbump
    cases hbump
  · rw [hanswer] at hbump
    have hfound : found.bump = 254 := Option.some.inj hbump
    obtain ⟨hcreate, hlarger⟩ := (hexact _ _).created hadm found hanswer
    rw [hfound] at hcreate hlarger
    have hmany : Request.answer { search with seeds := .replicate 17 [] } =
      .error (.tooManySeeds 17) := rfl
    refine ⟨found, rfl, hfound, hcreate, hlarger 255 (by decide), (hkept _ _ hmany).trans ?_⟩
    rw [hvalue, successes, List.filterMap_cons, hanswer]
    rfl

end DerivedAddress

end OfflineTx
