import Onx.DataStructures.Message
import Onx.Lib.KeySort
import Onx.State.Account

/-!
# Admission of messages

What a message must look like before it is taken: its type, its extra currencies in ascending order, no
value from outside, and an active source or a tentative run within its gas.

* `validateExtraCurrenciesSorted_cases`   the order of neighbours decides, and the first pair of them that
                                          does not ascend is the error;
* `admit_cases`                           what each of the three handlers demands;
* `one_admissible_order`                  **of all orders of the same currencies exactly one is admitted,** if
                                          no currency occurs twice.
-/

namespace Onx.Transactions

/-- the variants of `TransactionsError` that admission and delivery return -/
inductive AdmissionError where
  | wrongMessageType (expected actual : MessageType)
  | nonZeroExternalValue
  | unsortedExtraCurrencies
  | duplicateCurrencyId (currencyId : Uint32)
  | tentativeSignatureInvalid
  | tentativeGasLimitExceeded (used limit : Uint64)
  | internalSourceNotActive
  | duplicateDelivery
deriving DecidableEq

def MAX_TENTATIVE_GAS : Uint64 := 10_000

structure TentativeExecutionOutcome where
  signatureValid : Bool
  gasUsed : Uint64

/-- the loop over `windows(2)` -/
def validateExtraCurrenciesSorted : List (Uint32 × Uint128) → Except AdmissionError Unit
  | a :: b :: rest =>
    if a.1 = b.1 then .error (.duplicateCurrencyId a.1)
    else if a.1 > b.1 then .error .unsortedExtraCurrencies
    else validateExtraCurrenciesSorted (b :: rest)
  | _ => .ok ()

def validateMessageShape (message : Message) : Except AdmissionError Unit := do
  validateExtraCurrenciesSorted message.extraCurrencies
  if message.msgType = .externalInbound ∧ (message.amountNanos ≠ 0 ∨ message.extraCurrencies ≠ []) then
    .error .nonZeroExternalValue
  else .ok ()

def admitInternal (message : Message) (sourceAccountType : AccountType) : Except AdmissionError Unit :=
  if message.msgType ≠ .internal then .error (.wrongMessageType .internal message.msgType)
  else do
    validateMessageShape message
    if sourceAccountType ≠ .active then .error .internalSourceNotActive else .ok ()

def admitExternalInbound (message : Message) (outcome : TentativeExecutionOutcome) :
    Except AdmissionError Unit :=
  if message.msgType ≠ .externalInbound then .error (.wrongMessageType .externalInbound message.msgType)
  else do
    validateMessageShape message
    if !outcome.signatureValid then .error .tentativeSignatureInvalid
    else if outcome.gasUsed > MAX_TENTATIVE_GAS then
      .error (.tentativeGasLimitExceeded outcome.gasUsed MAX_TENTATIVE_GAS)
    else .ok ()

def admitExternalOutbound (message : Message) : Except AdmissionError Unit :=
  if message.msgType ≠ .externalOutbound then
    .error (.wrongMessageType .externalOutbound message.msgType)
  else validateMessageShape message

/-! ## currencies -/

/-- ascending currency ids -/
abbrev Ascending (ps : List (Uint32 × Uint128)) : Prop := ps.Pairwise fun a b => a.1 < b.1

/-- what is wrong with two neighbours -/
def neighbourError (a b : Uint32 × Uint128) : AdmissionError :=
  if a.1 = b.1 then .duplicateCurrencyId a.1 else .unsortedExtraCurrencies

/-- **The first two neighbours that do not ascend are the error.** -/
theorem validateExtraCurrenciesSorted_cases (ps : List (Uint32 × Uint128)) :
    (Ascending ps ∧ validateExtraCurrenciesSorted ps = .ok ())
    ∨ ∃ pre a b post, ps = pre ++ a :: b :: post ∧ Ascending (pre ++ [a]) ∧ ¬ a.1 < b.1
      ∧ validateExtraCurrenciesSorted ps = .error (neighbourError a b) := by
  induction ps with
  | nil => exact Or.inl ⟨List.Pairwise.nil, rfl⟩
  | cons a rest ih =>
    cases rest with
    | nil => exact Or.inl ⟨List.pairwise_singleton _ _, rfl⟩
    | cons b rest =>
      rw [validateExtraCurrenciesSorted]
      by_cases hlt : a.1 < b.1
      · rw [if_neg hlt.ne, if_neg (not_lt.mpr hlt.le)]
        rcases ih with ⟨hasc, hok⟩ | ⟨pre, x, y, post, hps, hasc, hxy, herr⟩
        · refine Or.inl ⟨List.pairwise_cons.mpr ⟨fun p hp => ?_, hasc⟩, hok⟩
          rcases List.mem_cons.mp hp with rfl | hp
          · exact hlt
          · exact hlt.trans ((List.pairwise_cons.mp hasc).1 p hp)
        · refine Or.inr ⟨a :: pre, x, y, post, by rw [hps, List.cons_append], ?_, hxy, herr⟩
          refine List.pairwise_cons.mpr ⟨fun p hp => ?_, hasc⟩
          -- the list before the fault starts with `b`
          cases pre with
          | nil =>
            rw [List.mem_singleton.mp hp, ← (List.cons.inj hps).1]
            exact hlt
          | cons z pre =>
            obtain ⟨rfl, _⟩ := List.cons.inj hps
            rcases List.mem_cons.mp hp with rfl | hp
            · exact hlt
            · exact hlt.trans ((List.pairwise_cons.mp hasc).1 p hp)
      · refine Or.inr ⟨[], a, b, rest, rfl, List.pairwise_singleton _ _, hlt, ?_⟩
        unfold neighbourError
        split_ifs with heq hgt
        · rfl
        · rfl
        · exact absurd (lt_of_le_of_ne (not_lt.mp hgt) heq) hlt

theorem validateExtraCurrenciesSorted_fault {pre post : List (Uint32 × Uint128)} {a b : Uint32 × Uint128}
    (hasc : Ascending (pre ++ [a])) (hab : ¬ a.1 < b.1) :
    validateExtraCurrenciesSorted (pre ++ a :: b :: post) = .error (neighbourError a b) := by
  induction pre with
  | nil =>
    show validateExtraCurrenciesSorted (a :: b :: post) = _
    rw [validateExtraCurrenciesSorted]
    unfold neighbourError
    split_ifs with heq hgt
    · rfl
    · rfl
    · exact absurd (lt_of_le_of_ne (not_lt.mp hgt) heq) hab
  | cons x pre ih =>
    obtain ⟨hx, hrest⟩ := List.pairwise_cons.mp hasc
    cases pre with
    | nil =>
      have hlt : x.1 < a.1 := hx a List.mem_cons_self
      show validateExtraCurrenciesSorted (x :: a :: b :: post) = _
      rw [validateExtraCurrenciesSorted, if_neg hlt.ne, if_neg (not_lt.mpr hlt.le)]
      exact ih hrest
    | cons y pre =>
      have hlt : x.1 < y.1 := hx y List.mem_cons_self
      show validateExtraCurrenciesSorted (x :: y :: (pre ++ a :: b :: post)) = _
      rw [validateExtraCurrenciesSorted, if_neg hlt.ne, if_neg (not_lt.mpr hlt.le)]
      exact ih hrest

theorem validateExtraCurrenciesSorted_iff {ps : List (Uint32 × Uint128)} :
    validateExtraCurrenciesSorted ps = .ok () ↔ Ascending ps := by
  rcases validateExtraCurrenciesSorted_cases ps with ⟨hasc, hok⟩ | ⟨pre, a, b, post, rfl, _, hab, herr⟩
  · exact iff_of_true hok hasc
  · refine iff_of_false (by rw [herr]; exact nofun) fun h => hab ?_
    exact (List.pairwise_cons.mp (List.pairwise_append.mp h).2.1).1 b List.mem_cons_self

/-- some order of the currencies ascends if none occurs twice -/
theorem exists_ascending {ps : List (Uint32 × Uint128)} :
    (∃ qs, qs.Perm ps ∧ Ascending qs) ↔ (ps.map Prod.fst).Nodup := by
  constructor
  · rintro ⟨qs, hperm, hasc⟩
    refine (hperm.map Prod.fst).nodup_iff.mp ?_
    exact List.pairwise_map.mpr (hasc.imp fun h => h.ne)
  · intro hnodup
    have hperm := List.perm_insertionSort (fun a b : Uint32 × Uint128 => a.1 ≤ b.1) ps
    have hne := List.pairwise_map.mp ((hperm.map Prod.fst).nodup_iff.mpr hnodup)
    have hle := @KeySort.pairwise_sort _ _ _ Prod.fst ps
    exact ⟨_, hperm, (hle.and hne).imp fun h => lt_of_le_of_ne h.1 h.2⟩

theorem ascending_unique {ps qs : List (Uint32 × Uint128)} (hperm : qs.Perm ps) (hq : Ascending qs)
    (hp : Ascending ps) : qs = ps :=
  List.Perm.eq_of_pairwise (fun _ _ _ _ hab hba => absurd hab hba.asymm) hq hp hperm

/-! ## the handlers -/

/-- what the type of a message demands besides its currencies -/
def Eligible (sourceAccountType : AccountType) (outcome : TentativeExecutionOutcome) (m : Message) : Prop :=
  match m.msgType with
  | .internal => sourceAccountType = .active
  | .externalInbound => m.amountNanos = 0 ∧ m.extraCurrencies = [] ∧ outcome.signatureValid = true
    ∧ outcome.gasUsed ≤ MAX_TENTATIVE_GAS
  | .externalOutbound => True

/-- some handler takes the message -/
def Admitted (sourceAccountType : AccountType) (outcome : TentativeExecutionOutcome) (m : Message) : Prop :=
  admitInternal m sourceAccountType = .ok () ∨ admitExternalInbound m outcome = .ok ()
    ∨ admitExternalOutbound m = .ok ()

section
variable {sourceAccountType : AccountType} {outcome : TentativeExecutionOutcome} {m : Message}

/-- one check after another -/
theorem then_ok {x y : Except AdmissionError Unit} : (do x; y) = .ok () ↔ x = .ok () ∧ y = .ok () := by
  cases x with
  | error e => exact iff_of_false nofun fun h => nomatch h.1
  | ok u => exact (and_iff_right rfl).symm

theorem validateMessageShape_iff : validateMessageShape m = .ok () ↔ Ascending m.extraCurrencies
    ∧ (m.msgType = .externalInbound → m.amountNanos = 0 ∧ m.extraCurrencies = []) := by
  unfold validateMessageShape
  rw [then_ok, validateExtraCurrenciesSorted_iff, ite_eq_right_iff, ← not_or.trans (and_congr not_not not_not)]
  simp

theorem admitInternal_iff : admitInternal m sourceAccountType = .ok () ↔ m.msgType = .internal
    ∧ validateMessageShape m = .ok () ∧ sourceAccountType = .active := by
  unfold admitInternal
  by_cases htype : m.msgType = .internal
  · rw [if_neg (not_not.mpr htype), then_ok, and_iff_right htype]
    simp
  · rw [if_pos htype]
    exact iff_of_false nofun fun h => htype h.1

theorem admitExternalInbound_iff : admitExternalInbound m outcome = .ok () ↔ m.msgType = .externalInbound
    ∧ validateMessageShape m = .ok () ∧ outcome.signatureValid = true ∧ outcome.gasUsed ≤ MAX_TENTATIVE_GAS := by
  unfold admitExternalInbound
  by_cases htype : m.msgType = .externalInbound
  · rw [if_neg (not_not.mpr htype), then_ok, and_iff_right htype]
    cases outcome.signatureValid <;> simp
  · rw [if_pos htype]
    exact iff_of_false nofun fun h => htype h.1

theorem admitExternalOutbound_iff : admitExternalOutbound m = .ok () ↔ m.msgType = .externalOutbound
    ∧ validateMessageShape m = .ok () := by
  unfold admitExternalOutbound
  by_cases htype : m.msgType = .externalOutbound
  · rw [if_neg (not_not.mpr htype), and_iff_right htype]
  · rw [if_pos htype]
    exact iff_of_false nofun fun h => htype h.1

/-- **Each type has its own handler.** -/
theorem admitted_iff : Admitted sourceAccountType outcome m
    ↔ Ascending m.extraCurrencies ∧ Eligible sourceAccountType outcome m := by
  unfold Admitted Eligible
  rw [admitInternal_iff, admitExternalInbound_iff, admitExternalOutbound_iff, validateMessageShape_iff]
  cases m.msgType <;> simp [and_assoc]

end

/-- **Exactly one order of the currencies of a message is admitted,** if none occurs twice and its type allows
it.  The other orders fail on the first two neighbours that do not ascend. -/
theorem one_admissible_order (sourceAccountType : AccountType) (outcome : TentativeExecutionOutcome)
    (m : Message) :
    ((∃ ps, ps.Perm m.extraCurrencies ∧ Admitted sourceAccountType outcome { m with extraCurrencies := ps })
      ↔ (m.extraCurrencies.map Prod.fst).Nodup ∧ Eligible sourceAccountType outcome m)
    ∧ (∀ ps qs, ps.Perm qs → Admitted sourceAccountType outcome { m with extraCurrencies := ps } →
      Admitted sourceAccountType outcome { m with extraCurrencies := qs } → ps = qs)
    ∧ ∀ e, validateExtraCurrenciesSorted m.extraCurrencies = .error e ↔
      ∃ pre a b post, m.extraCurrencies = pre ++ a :: b :: post ∧ Ascending (pre ++ [a]) ∧ ¬ a.1 < b.1
        ∧ e = neighbourError a b := by
  refine ⟨?_, fun ps qs hperm hp hq => ?_, fun e => ?_⟩
  · rw [← exists_ascending]
    constructor
    · rintro ⟨ps, hperm, hadmitted⟩
      obtain ⟨hasc, heligible⟩ := admitted_iff.mp hadmitted
      refine ⟨⟨ps, hperm, hasc⟩, ?_⟩
      have hnil : ps = [] → m.extraCurrencies = [] := fun h => (h ▸ hperm).nil_eq.symm
      unfold Eligible at heligible ⊢
      cases htype : m.msgType <;> simp_all
    · rintro ⟨⟨ps, hperm, hasc⟩, heligible⟩
      refine ⟨ps, hperm, admitted_iff.mpr ⟨hasc, ?_⟩⟩
      have hnil : m.extraCurrencies = [] → ps = [] := fun h => (h ▸ hperm).eq_nil
      unfold Eligible at heligible ⊢
      cases htype : m.msgType <;> simp_all
  · exact ascending_unique hperm (admitted_iff.mp hp).1 (admitted_iff.mp hq).1
  · constructor
    · intro herr
      rcases validateExtraCurrenciesSorted_cases m.extraCurrencies with
        ⟨_, hok⟩ | ⟨pre, a, b, post, hps, hasc, hab, hfault⟩
      · rw [hok] at herr
        cases herr
      · rw [hfault] at herr
        exact ⟨pre, a, b, post, hps, hasc, hab, (Except.error.inj herr).symm⟩
    · rintro ⟨pre, a, b, post, hps, hasc, hab, rfl⟩
      rw [hps]
      exact validateExtraCurrenciesSorted_fault hasc hab

end Onx.Transactions
