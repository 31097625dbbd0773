import CPractice.Lib.Reach
import CPractice.Lib.Tally
import Mathlib.Algebra.BigOperators.Group.Finset.Basic
import Mathlib.Algebra.Order.Group.Int

/-! `AccountService::transfer` over a store of accounts by id. The two accounts are copies:
they are read first and written back one after the other. -/

namespace CPractice

structure Account where
  accountId : String
  balance : Int

/-- The value of a `long` expression; none where it overflows. -/
def toLong (x : Int) : Option Int :=
  if -2 ^ 63 ≤ x ∧ x < 2 ^ 63 then some x else none

theorem toLong_eq_some {x y : Int} (h : toLong x = some y) : y = x := by
  obtain ⟨-, h⟩ := Option.ite_none_right_eq_some.mp h
  exact (Option.some.inj h).symm

namespace Account

def debit (a : Account) (amount : Int) : Option Account :=
  (toLong (a.balance - amount)).map fun balance => { a with balance := balance }

def credit (a : Account) (amount : Int) : Option Account :=
  (toLong (a.balance + amount)).map fun balance => { a with balance := balance }

end Account

/-- A map in which every account is stored under its own id. -/
structure AccountHelper where
  ids : Finset String
  mAccount : String → Account
  keyed : ∀ id ∈ ids, (mAccount id).accountId = id

structure Transfer where
  senderId : String
  beneficiaryId : String
  amount : Int

def Transfer.settle (t : Transfer) (a : Account) : Account :=
  { a with balance := a.balance - (if a.accountId = t.senderId then t.amount else 0) +
      (if a.accountId = t.beneficiaryId then t.amount else 0) }

namespace AccountHelper

def updateAccount (m : AccountHelper) (account : Account) : AccountHelper where
  ids := insert account.accountId m.ids
  mAccount := Function.update m.mAccount account.accountId account
  keyed := by
    intro id hid
    by_cases heq : id = account.accountId
    · subst heq
      rw [Function.update_self]
    · rw [Function.update_of_ne heq]
      exact m.keyed id (Finset.mem_of_mem_insert_of_ne hid heq)

/-- The `Account()` returned for an id that is not there has no balance: none. -/
def findAccountForUser (m : AccountHelper) (userId : String) : Option Account :=
  if userId ∈ m.ids then some (m.mAccount userId) else none

def transfer (m : AccountHelper) (t : Transfer) : Option AccountHelper := do
  let sender ← m.findAccountForUser t.senderId
  let beneficiary ← m.findAccountForUser t.beneficiaryId
  let sender ← sender.debit t.amount
  let beneficiary ← beneficiary.credit t.amount
  return (m.updateAccount sender).updateAccount beneficiary

def total (m : AccountHelper) : Int := ∑ id ∈ m.ids, (m.mAccount id).balance

variable {m m' : AccountHelper} {t : Transfer} {id : String}

theorem findAccountForUser_id {account : Account} (h : m.findAccountForUser id = some account) :
    account.accountId = id := by
  obtain ⟨hid, haccount⟩ := Option.ite_none_right_eq_some.mp h
  rw [← Option.some.inj haccount]
  exact m.keyed id hid

theorem findAccountForUser_updateAccount (m : AccountHelper) (account : Account) (id : String) :
    (m.updateAccount account).findAccountForUser id =
      if id = account.accountId then some account else m.findAccountForUser id := by
  by_cases hid : id = account.accountId
  · subst hid
    simp [findAccountForUser, updateAccount]
  · simp [findAccountForUser, updateAccount, hid]

/-- A write changes the total by the new balance minus the one it replaces. -/
theorem updateAccount_total {old : Account} (account : Account) (h : m.findAccountForUser account.accountId = some old) :
    (m.updateAccount account).total + old.balance = m.total + account.balance := by
  obtain ⟨hid, hold⟩ := Option.ite_none_right_eq_some.mp h
  have hids : (m.updateAccount account).ids = m.ids := Finset.insert_eq_of_mem hid
  rw [total, hids, ← Option.some.inj hold]
  exact Tally.sum_update_add Account.balance m.mAccount hid account

theorem transfer_cases (h : m.transfer t = some m') :
    ∃ sender beneficiary : Account, m.findAccountForUser t.senderId = some sender ∧
      m.findAccountForUser t.beneficiaryId = some beneficiary ∧
      m' = (m.updateAccount ⟨t.senderId, sender.balance - t.amount⟩).updateAccount
        ⟨t.beneficiaryId, beneficiary.balance + t.amount⟩ := by
  obtain ⟨sender, hs, h⟩ := Option.bind_eq_some_iff.mp h
  obtain ⟨beneficiary, hb, h⟩ := Option.bind_eq_some_iff.mp h
  obtain ⟨debited, hdebit, h⟩ := Option.bind_eq_some_iff.mp h
  obtain ⟨credited, hcredit, h⟩ := Option.bind_eq_some_iff.mp h
  obtain ⟨x, hx, rfl⟩ := Option.map_eq_some_iff.mp hdebit
  obtain ⟨y, hy, rfl⟩ := Option.map_eq_some_iff.mp hcredit
  refine ⟨sender, beneficiary, hs, hb, ?_⟩
  rw [toLong_eq_some hx, toLong_eq_some hy, findAccountForUser_id hs, findAccountForUser_id hb] at h
  exact (Option.some.inj h).symm

structure Moves (m m' : AccountHelper) (t : Transfer) : Prop where
  others : ∀ id, id ≠ t.senderId → id ≠ t.beneficiaryId → m'.findAccountForUser id = m.findAccountForUser id
  applied : ∀ id, id = t.senderId ∨ id = t.beneficiaryId →
    m'.findAccountForUser id = (m.findAccountForUser id).map t.settle

/-- Between two accounts nothing is lost; on one, the copy with the credit wins. -/
theorem transfer_total (h : m.transfer t = some m') :
    m'.total = m.total + if t.senderId = t.beneficiaryId then t.amount else 0 := by
  obtain ⟨sender, beneficiary, hs, hb, rfl⟩ := transfer_cases h
  have hdebit := updateAccount_total ⟨t.senderId, sender.balance - t.amount⟩ hs
  have hfind := m.findAccountForUser_updateAccount ⟨t.senderId, sender.balance - t.amount⟩ t.beneficiaryId
  dsimp only at hdebit hfind
  by_cases heq : t.senderId = t.beneficiaryId
  · rw [if_pos heq.symm] at hfind
    have hcredit := updateAccount_total ⟨t.beneficiaryId, beneficiary.balance + t.amount⟩ hfind
    rw [heq, hb] at hs
    cases hs
    rw [if_pos heq]
    dsimp only at hcredit
    omega
  · have hne : t.beneficiaryId ≠ t.senderId := fun h => heq h.symm
    rw [if_neg hne, hb] at hfind
    have hcredit := updateAccount_total ⟨t.beneficiaryId, beneficiary.balance + t.amount⟩ hfind
    rw [if_neg heq]
    dsimp only at hcredit
    omega

theorem transfer_moves_iff (h : m.transfer t = some m') :
    m.Moves m' t ↔ t.senderId ≠ t.beneficiaryId ∨ t.amount = 0 := by
  obtain ⟨sender, beneficiary, hs, hb, rfl⟩ := transfer_cases h
  constructor
  · intro hmoves
    by_cases heq : t.senderId = t.beneficiaryId
    · have happlied := hmoves.applied t.beneficiaryId (.inr rfl)
      rw [findAccountForUser_updateAccount, if_pos rfl, hb, Option.map_some, Option.some.injEq] at happlied
      have hbalance := congrArg Account.balance happlied
      simp only [Transfer.settle, findAccountForUser_id hb, heq, if_true] at hbalance
      right
      omega
    · exact .inl heq
  · intro hgood
    constructor
    case others =>
      intro id hids hidb
      rw [findAccountForUser_updateAccount, if_neg hidb, findAccountForUser_updateAccount, if_neg hids]
    case applied =>
      intro id hid
      by_cases hidb : id = t.beneficiaryId
      · subst hidb
        rw [findAccountForUser_updateAccount, if_pos rfl, hb, Option.map_some]
        have hid := findAccountForUser_id hb
        by_cases heq : t.senderId = t.beneficiaryId
        · have hzero : t.amount = 0 := hgood.resolve_left fun hne => hne heq
          simp [Transfer.settle, hid, hzero]
        · have hne : t.beneficiaryId ≠ t.senderId := fun h => heq h.symm
          simp [Transfer.settle, hid, hne]
      · have hids : id = t.senderId := hid.resolve_right hidb
        subst hids
        rw [findAccountForUser_updateAccount, if_neg hidb, findAccountForUser_updateAccount, if_pos rfl, hs,
          Option.map_some]
        simp [Transfer.settle, findAccountForUser_id hs, hidb]

theorem run_total {ts : List Transfer} (h : Reach.run transfer ts m = some m')
    (hgood : ∀ t ∈ ts, t.senderId ≠ t.beneficiaryId ∨ t.amount = 0) : m'.total = m.total := by
  induction ts generalizing m with
  | nil =>
    cases h
    rfl
  | cons t ts ih =>
    obtain ⟨m₁, ht, hts⟩ := Option.bind_eq_some_iff.mp h
    have hrest := ih hts fun u hu => hgood u (List.mem_cons_of_mem t hu)
    have hfirst := transfer_total ht
    rcases hgood t List.mem_cons_self with hne | hzero
    · rw [hrest, hfirst, if_neg hne, add_zero]
    · rw [hrest, hfirst, hzero, ite_self, add_zero]

/-- Money is conserved by a sequence of transfers if and only if none of them moves money
from an account to itself. -/
theorem money_conserved_iff {ts : List Transfer} (h : Reach.run transfer ts m = some m') :
    (m'.total = m.total ∧ ∀ before t after m₁ m₂, ts = before ++ t :: after →
      Reach.run transfer before m = some m₁ → m₁.transfer t = some m₂ → m₁.Moves m₂ t) ↔
      ∀ t ∈ ts, t.senderId ≠ t.beneficiaryId ∨ t.amount = 0 := by
  constructor
  · intro ⟨_, hmoves⟩ t ht
    obtain ⟨before, after, rfl⟩ := List.append_of_mem ht
    rw [Reach.run_append] at h
    obtain ⟨m₁, hbefore, hrest⟩ := Option.bind_eq_some_iff.mp h
    obtain ⟨m₂, htransfer, -⟩ := Option.bind_eq_some_iff.mp hrest
    exact (transfer_moves_iff htransfer).mp (hmoves before t after m₁ m₂ rfl hbefore htransfer)
  · intro hgood
    refine ⟨run_total h hgood, ?_⟩
    intro before t after m₁ m₂ hts _ htransfer
    apply (transfer_moves_iff htransfer).mpr
    apply hgood
    simp [hts]

def testAccounts : AccountHelper where
  ids := {"A", "B"}
  mAccount := fun id => ⟨id, if id = "A" then 3000 else 2000⟩
  keyed := fun _ _ => rfl

theorem transferTest_conserved :
    ∃ m' : AccountHelper, Reach.run transfer [⟨"A", "B", 1005⟩, ⟨"A", "A", 0⟩] testAccounts = some m' ∧
      m'.total = testAccounts.total := by
  have hrun : ∃ m', Reach.run transfer [⟨"A", "B", 1005⟩, ⟨"A", "A", 0⟩] testAccounts = some m' := ⟨_, rfl⟩
  obtain ⟨m', hrun⟩ := hrun
  exact ⟨m', hrun, ((money_conserved_iff hrun).mpr (by simp)).1⟩

theorem self_transfer_not_conserved :
    ¬ ∀ (ts : List Transfer) (m m' : AccountHelper), Reach.run transfer ts m = some m' → m'.total = m.total := by
  intro hall
  have hrun := show Reach.run transfer [⟨"A", "A", 1005⟩] testAccounts = some _ from rfl
  exact absurd (hall _ _ _ hrun) (by decide)

end AccountHelper

end CPractice
