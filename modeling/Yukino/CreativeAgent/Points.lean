import Mathlib.Algebra.BigOperators.Group.List.Basic
import Mathlib.Data.List.Induction
import Mathlib.Tactic.Ring
import Mathlib.Tactic.Linarith

set_option autoImplicit false

/-!
# The points ledger of `apps/creative_agent`

Points are deducted and refunded by rows of a table. The balance of a user is the sum of the
refunds without the sum of the deductions that are not rolled back.

## Main definitions

* `getBalance`, `insertConsume`, `insertRefund`, `refundByOrderID` — the
  repository.
* `deduct`, `refund` — `PointsApp`.
* `Account` — what is deducted and not refunded.

## Main results

* `getBalance_deduct`, `getBalance_refund` — what the operations do to the
  balance.
* `balance_conserved_iff` — when the balance is what the account says.

## Design

The table is a list of rows in the order of their primary keys. A transaction that fails leaves it
as it was.
-/

namespace Yukino.CreativeAgent

open List

/-! ## The table -/

inductive FlowType
  | consume
  | refund
  deriving DecidableEq

inductive FlowStatus
  | valid
  | rolledBack
  deriving DecidableEq

structure PointsFlow where
  userID : ℤ
  projectID : String
  orderID : String
  flowType : FlowType
  amount : ℤ
  sceneDesc : String
  status : FlowStatus
  deriving DecidableEq

abbrev Ledger : Type :=
  List PointsFlow

inductive PointsError
  /-- The index on order and type has such a row. -/
  | duplicate
  /-- "already refunded" -/
  | alreadyRefunded
  deriving DecidableEq

def getBalance (l : Ledger) (userID : ℤ) : ℤ :=
  (l.map fun f => if f.userID = userID ∧ f.flowType = .refund then f.amount else 0).sum -
    (l.map fun f =>
      if f.userID = userID ∧ f.flowType = .consume ∧ f.status = .valid then f.amount else 0).sum

/-- The rows of an order with a type. -/
def IsOf (orderID : String) (flowType : FlowType) (f : PointsFlow) : Bool :=
  f.orderID = orderID ∧ f.flowType = flowType

/-- `Create`, with the unique index on order and type. -/
def create (l : Ledger) (f : PointsFlow) : Except PointsError Ledger :=
  if l.any (IsOf f.orderID f.flowType) then .error .duplicate else .ok (l ++ [f])

def insertConsume (l : Ledger) (f : PointsFlow) : Except PointsError Ledger :=
  create l { f with flowType := .consume, status := .valid }

/-- The deductions of an order that are not rolled back. -/
def IsRefundable (orderID : String) (f : PointsFlow) : Bool :=
  IsOf orderID .consume f && f.status = .valid

def rollBack (orderID : String) (f : PointsFlow) : PointsFlow :=
  if IsRefundable orderID f then { f with status := .rolledBack } else f

/-- The transaction that writes a refund and rolls back the deduction. -/
def insertRefund (l : Ledger) (f : PointsFlow) : Except PointsError Ledger := do
  let l ← create l { f with flowType := .refund, status := .valid }
  if l.any (IsRefundable f.orderID) then return l.map (rollBack f.orderID)
  else .error .alreadyRefunded

/-- The refund of a deduction. -/
def refundRow (consume : PointsFlow) (orderID title : String) : PointsFlow where
  userID := consume.userID
  projectID := consume.projectID
  orderID := orderID
  flowType := .refund
  amount := consume.amount
  sceneDesc := title
  status := .valid

def refundByOrderID (l : Ledger) (orderID title : String) : Except PointsError Ledger :=
  if l.any (IsOf orderID .refund) then .ok l
  else
    match (l.filter (IsOf orderID .consume)).getLast? with
    | none => .ok l
    | some consume =>
      match insertRefund l (refundRow consume orderID title) with
      | .error .alreadyRefunded => .ok l
      | result => result

/-! ## The application service -/

def consumeTitle (projectType : String) : String :=
  if projectType = "mix_video" then "度加AI-AI成片"
  else if projectType = "miaoying" then "度加AI-视频生成"
  else if projectType = "miaotu" then "度加AI-图片生成"
  else if projectType = "graphic_notes" then "度加AI-AI笔记图"
  else "度加AI-AI成片"

def backTitle (projectType : String) : String :=
  if projectType = "mix_video" then "度加AI-AI成片失败退回"
  else if projectType = "miaoying" then "度加AI-视频生成失败退回"
  else if projectType = "miaotu" then "度加AI-图片生成失败退回"
  else if projectType = "graphic_notes" then "度加AI-AI笔记图失败退回"
  else "度加AI-AI成片失败退回"

def deduct (l : Ledger) (userID : ℤ) (projectID orderID projectType : String) (amount : ℤ) :
    Except PointsError Ledger :=
  insertConsume l
    { userID := userID, projectID := projectID, orderID := orderID, flowType := .consume,
      amount := amount, sceneDesc := consumeTitle projectType, status := .valid }

/-- The user is not used by the repository. -/
def refund (l : Ledger) (orderID : String) (_userID : ℤ) (projectType : String) :
    Except PointsError Ledger :=
  refundByOrderID l orderID (backTitle projectType)

/-! ## Balances -/

section Balance

variable {l l' : Ledger} {userID : ℤ} {orderID : String}

/-- What a row adds to the balance of a user. -/
def contribution (userID : ℤ) (f : PointsFlow) : ℤ :=
  if f.userID = userID then
    match f.flowType, f.status with
    | .refund, _ => f.amount
    | .consume, .valid => -f.amount
    | .consume, .rolledBack => 0
  else 0

lemma getBalance_eq_sum (l : Ledger) (userID : ℤ) :
    getBalance l userID = (l.map (contribution userID)).sum := by
  induction l with
  | nil => rfl
  | cons f l ih =>
    have hrow : contribution userID f =
        (if f.userID = userID ∧ f.flowType = .refund then f.amount else 0) -
          (if f.userID = userID ∧ f.flowType = .consume ∧ f.status = .valid then f.amount
            else 0) := by
      unfold contribution
      by_cases huser : f.userID = userID
      · cases f.flowType <;> cases f.status <;> simp [huser]
      · simp [huser]
    rw [map_cons, sum_cons, ← ih, hrow]
    unfold getBalance
    simp only [map_cons, sum_cons]
    ring

lemma create_eq_ok {f : PointsFlow} :
    create l f = .ok l' ↔ l.any (IsOf f.orderID f.flowType) = false ∧ l' = l ++ [f] := by
  unfold create
  cases l.any (IsOf f.orderID f.flowType) with
  | true => simp
  | false => simp [eq_comm]

variable {projectID projectType title : String} {amount : ℤ}

/-- A deduction is a new row of its order. -/
lemma deduct_eq_ok :
    deduct l userID projectID orderID projectType amount = .ok l' ↔
      l.any (IsOf orderID .consume) = false ∧
        l' = l ++ [⟨userID, projectID, orderID, .consume, amount, consumeTitle projectType,
          .valid⟩] :=
  create_eq_ok

/-- An order with a deduction is not deducted again. -/
lemma deduct_eq_error
    (h : l.any (IsOf orderID .consume) = true) :
    deduct l userID projectID orderID projectType amount = .error .duplicate :=
  if_pos h

/-- **Deductions.** The amount is taken from the balance. -/
theorem getBalance_deduct
    (h : deduct l userID projectID orderID projectType amount = .ok l') :
    getBalance l' userID = getBalance l userID - amount := by
  obtain ⟨-, rfl⟩ := deduct_eq_ok.1 h
  simp [getBalance]
  ring

/-- What the rolled back deductions of an order were. -/
lemma getBalance_map_rollBack (l : Ledger) (userID : ℤ) (orderID : String) :
    getBalance (l.map (rollBack orderID)) userID = getBalance l userID +
      ((l.filter (IsRefundable orderID)).map fun f =>
        if f.userID = userID then f.amount else 0).sum := by
  simp only [getBalance_eq_sum]
  induction l with
  | nil => rfl
  | cons f l ih =>
    simp only [map_cons, sum_cons, ih]
    cases href : IsRefundable orderID f with
    | true =>
      have htype : f.flowType = .consume ∧ f.status = .valid := by
        simp only [IsRefundable, IsOf, Bool.and_eq_true, decide_eq_true_eq] at href
        exact ⟨href.1.2, href.2⟩
      rw [filter_cons_of_pos href, map_cons, sum_cons, rollBack]
      unfold contribution
      rw [htype.1, htype.2]
      split_ifs <;> ring
    | false =>
      rw [filter_cons_of_neg (by simp [href]), rollBack, if_neg (by simp [href])]
      ring

/-- What a refund writes. -/
lemma refundByOrderID_cases (h : refundByOrderID l orderID title = .ok l') :
    (l' = l ∧ (l.any (IsOf orderID .refund) = true ∨ l.any (IsRefundable orderID) = false)) ∨
      ∃ consume, (l.filter (IsOf orderID .consume)).getLast? = some consume ∧
        l.any (IsRefundable orderID) = true ∧
        l' = (l ++ [refundRow consume orderID title]).map (rollBack orderID) := by
  unfold refundByOrderID at h
  split_ifs at h with hrefunded
  · cases h
    exact .inl ⟨rfl, .inl hrefunded⟩
  · split at h
    · rename_i hlast
      cases h
      refine .inl ⟨rfl, .inr ?_⟩
      have hnil := getLast?_eq_none_iff.1 hlast
      rw [any_eq_false]
      intro f hf
      have hnot := filter_eq_nil_iff.1 hnil f hf
      simp only [IsRefundable, Bool.and_eq_true, not_and]
      exact fun hof => absurd hof hnot
    · rename_i consume hconsume
      have hcreate : create l (refundRow consume orderID title) =
          .ok (l ++ [refundRow consume orderID title]) :=
        create_eq_ok.2 ⟨Bool.eq_false_iff.2 hrefunded, rfl⟩
      have hinsert : insertRefund l (refundRow consume orderID title) =
          if (l ++ [refundRow consume orderID title]).any (IsRefundable orderID) then
            .ok ((l ++ [refundRow consume orderID title]).map (rollBack orderID))
          else .error .alreadyRefunded := by
        change (create l (refundRow consume orderID title) >>= fun l =>
          if l.any (IsRefundable orderID) then .ok (l.map (rollBack orderID))
          else .error .alreadyRefunded) = _
        rw [hcreate]
        rfl
      rw [hinsert] at h
      split_ifs at h with hany
      · cases h
        refine .inr ⟨consume, hconsume, ?_, rfl⟩
        simpa [IsRefundable, IsOf, refundRow] using hany
      · cases h
        refine .inl ⟨rfl, .inr ?_⟩
        simpa [IsRefundable, IsOf, refundRow] using hany

/-- The rows of an order: the rows of deductions stay, whatever is rolled back. -/
lemma filter_map_rollBack (l : Ledger) (orderID orderID' : String) :
    (((l.map (rollBack orderID')).filter (IsOf orderID .consume)).map fun f =>
        (f.userID, f.amount)) =
      (l.filter (IsOf orderID .consume)).map fun f => (f.userID, f.amount) := by
  have hkeep : ∀ f, IsOf orderID .consume (rollBack orderID' f) = IsOf orderID .consume f := by
    intro f
    unfold rollBack
    split_ifs
    · rfl
    · rfl
  have hrow : ∀ f, ((rollBack orderID' f).userID, (rollBack orderID' f).amount) =
      (f.userID, f.amount) := by
    intro f
    unfold rollBack
    split_ifs
    · rfl
    · rfl
  rw [filter_map, map_map]
  have hfilter : (IsOf orderID .consume ∘ rollBack orderID') = IsOf orderID .consume :=
    funext hkeep
  rw [hfilter]
  exact map_congr_left fun f _ => hrow f

/-- **Refunds.** If an order has one deduction, of the user, then a refund leaves the balance as it
is or adds the amount twice: as a refund, and as a deduction that does not count any more. -/
theorem getBalance_refund
    (hconsume : (l.filter (IsOf orderID .consume)).map (fun f => (f.userID, f.amount)) =
      [(userID, amount)])
    (h : refundByOrderID l orderID title = .ok l') :
    getBalance l' userID = getBalance l userID ∨
      getBalance l' userID = getBalance l userID + 2 * amount := by
  rcases refundByOrderID_cases h with ⟨rfl, -⟩ | ⟨consume, hlast, hany, rfl⟩
  · exact .inl rfl
  · right
    obtain ⟨f, hf⟩ : ∃ f, l.filter (IsOf orderID .consume) = [f] := by
      have hlength := congrArg length hconsume
      rw [length_map] at hlength
      exact length_eq_one_iff.1 hlength
    rw [hf] at hlast hconsume
    obtain rfl : f = consume := by simpa using hlast
    obtain ⟨huser, hamount⟩ : f.userID = userID ∧ f.amount = amount := by simpa using hconsume
    -- the only deduction of the order is the one that is rolled back
    have hrefundable : l.filter (IsRefundable orderID) = [f] := by
      have hsplit : l.filter (IsRefundable orderID) =
          (l.filter (IsOf orderID .consume)).filter fun f => f.status = .valid := by
        rw [filter_filter]
        refine filter_congr fun f _ => ?_
        rw [IsRefundable, Bool.and_comm]
      obtain ⟨g, hg, hrefundable⟩ := any_eq_true.1 hany
      have hmem : g ∈ l.filter (IsRefundable orderID) := mem_filter.2 ⟨hg, hrefundable⟩
      rw [hsplit, hf] at hmem ⊢
      by_cases hvalid : f.status = .valid
      · rw [filter_cons_of_pos (by simpa using hvalid), filter_nil]
      · rw [filter_cons_of_neg (by simpa using hvalid)] at hmem
        cases hmem
    have hnew : IsRefundable orderID (refundRow f orderID title) = false := by
      simp [IsRefundable, IsOf, refundRow]
    rw [getBalance_map_rollBack, filter_append, hrefundable, filter_cons_of_neg (by simp [hnew])]
    simp [getBalance, refundRow, huser, hamount]
    ring

end Balance

/-! ## Calls -/

/-- A call of the application service, for a fixed user. -/
inductive PointsCall
  | deduct (projectID orderID projectType : String) (amount : ℤ)
  | refund (orderID projectType : String)

/-- The table after a call. -/
def perform (userID : ℤ) (l : Ledger) (c : PointsCall) : Ledger :=
  let result :=
    match c with
    | .deduct projectID orderID projectType amount =>
      deduct l userID projectID orderID projectType amount
    | .refund orderID projectType => refund l orderID userID projectType
  match result with
  | .ok l' => l'
  | .error _ => l

/-- The table after a sequence of calls. -/
def performAll (userID : ℤ) (l : Ledger) (calls : List PointsCall) : Ledger :=
  calls.foldl (perform userID) l

/-- The points that a user has been given at first. -/
structure Credits where
  flows : Ledger
  isRefund : ∀ f ∈ flows, f.flowType = .refund

/-- The amount of a deduction of an order. -/
def PointsCall.amountOf (orderID : String) : PointsCall → Option ℤ
  | .deduct _ orderID' _ amount => if orderID' = orderID then some amount else none
  | .refund _ _ => none

/-- The amount of the first deduction of an order. -/
def firstAmount (orderID : String) (calls : List PointsCall) : Option ℤ :=
  calls.findSome? (PointsCall.amountOf orderID)

/-- The account of a user: the orders that were deducted, and what is deducted and not refunded. -/
structure Account where
  deducted : List String
  outstanding : List (String × ℤ)

def Account.perform (a : Account) : PointsCall → Account
  | .deduct _ orderID _ amount =>
    if orderID ∈ a.deducted then a
    else ⟨orderID :: a.deducted, (orderID, amount) :: a.outstanding⟩
  | .refund orderID _ =>
    { a with outstanding := a.outstanding.filter fun entry => entry.1 ≠ orderID }

def account (calls : List PointsCall) : Account :=
  calls.foldl Account.perform ⟨[], []⟩

/-- What is outstanding of an order. -/
def outstandingOf (calls : List PointsCall) (orderID : String) : List (String × ℤ) :=
  (account calls).outstanding.filter fun entry => entry.1 = orderID

/-- The sum of the deductions that are not refunded. -/
def owed (calls : List PointsCall) : ℤ :=
  ((account calls).outstanding.map Prod.snd).sum

/-- No order is refunded after a deduction of an amount other than zero. -/
def NothingRefunded (calls : List PointsCall) : Prop :=
  ∀ before orderID projectType after, calls = before ++ .refund orderID projectType :: after →
    firstAmount orderID before = none ∨ firstAmount orderID before = some 0

section Account

variable {calls : List PointsCall} {orderID : String}

lemma firstAmount_append (calls calls' : List PointsCall) (orderID : String) :
    firstAmount orderID (calls ++ calls') =
      (firstAmount orderID calls).or (firstAmount orderID calls') :=
  findSome?_append

@[simp] lemma firstAmount_singleton (c : PointsCall) (orderID : String) :
    firstAmount orderID [c] = c.amountOf orderID := by
  simp [firstAmount]

lemma account_append (calls : List PointsCall) (c : PointsCall) :
    account (calls ++ [c]) = (account calls).perform c := by
  rw [account, foldl_append]
  rfl

lemma performAll_append (userID : ℤ) (l : Ledger) (calls : List PointsCall) (c : PointsCall) :
    performAll userID l (calls ++ [c]) = perform userID (performAll userID l calls) c := by
  rw [performAll, foldl_append]
  rfl

lemma mem_deducted (calls : List PointsCall) (orderID : String) :
    orderID ∈ (account calls).deducted ↔ (firstAmount orderID calls).isSome := by
  induction calls using reverseRecOn with
  | nil => simp [account, firstAmount]
  | append_singleton calls c ih =>
    rw [account_append, firstAmount_append, firstAmount_singleton]
    cases c with
    | deduct projectID orderID' projectType amount =>
      rw [Account.perform, PointsCall.amountOf]
      by_cases heq : orderID' = orderID
      · subst heq
        rw [if_pos rfl]
        split_ifs with hmem
        · simp [hmem]
        · simp
      · rw [if_neg heq]
        split_ifs
        · simp [ih]
        · simp [ih, Ne.symm heq]
    | refund orderID' projectType => simp [Account.perform, PointsCall.amountOf, ih]

/-- What is outstanding of an order is its first deduction, or nothing once that was refunded. -/
lemma outstanding_eq (calls : List PointsCall) (orderID : String) :
    outstandingOf calls orderID =
        ((firstAmount orderID calls).map fun amount => (orderID, amount)).toList ∨
      outstandingOf calls orderID = [] ∧ ∃ before projectType after,
        calls = before ++ .refund orderID projectType :: after ∧
          firstAmount orderID before ≠ none := by
  induction calls using reverseRecOn with
  | nil => exact .inl rfl
  | append_singleton calls c ih =>
    rw [firstAmount_append, firstAmount_singleton]
    -- a call that leaves the order alone
    by_cases hsame : outstandingOf (calls ++ [c]) orderID = outstandingOf calls orderID ∧
        (firstAmount orderID calls).or (c.amountOf orderID) = firstAmount orderID calls
    · rw [hsame.1, hsame.2]
      exact ih.imp_right fun ⟨hnil, before, projectType, after, heq, hne⟩ =>
        ⟨hnil, before, projectType, after ++ [c], by rw [heq]; simp, hne⟩
    unfold outstandingOf at hsame ⊢
    rw [account_append] at hsame ⊢
    cases c with
    | deduct projectID orderID' projectType amount =>
      by_cases heq : orderID' = orderID
      · subst heq
        rw [Account.perform] at hsame ⊢
        split_ifs at hsame ⊢ with hmem
        · rw [mem_deducted] at hmem
          simp [Option.or_of_isSome hmem] at hsame
        · rw [mem_deducted, Option.not_isSome_iff_eq_none] at hmem
          have hnil : outstandingOf calls orderID' = [] := by
            rcases ih with ih | ih
            · rw [ih, hmem]
              rfl
            · exact ih.1
          unfold outstandingOf at hnil
          simp [hmem, hnil, PointsCall.amountOf]
      · refine absurd ⟨?_, by simp [PointsCall.amountOf, heq]⟩ hsame
        rw [Account.perform]
        split_ifs
        · rfl
        · exact filter_cons_of_neg (by simpa using heq)
    | refund orderID' projectType =>
      by_cases heq : orderID' = orderID
      · subst heq
        have hnil : ((account calls).perform (.refund orderID' projectType)).outstanding.filter
            (fun entry => entry.1 = orderID') = [] := by
          simp [Account.perform]
        rw [hnil]
        cases hfirst : firstAmount orderID' calls with
        | none => exact .inl rfl
        | some amount => exact .inr ⟨rfl, calls, projectType, [], rfl, by simp [hfirst]⟩
      · refine absurd ⟨?_, Option.or_none⟩ hsame
        rw [Account.perform, filter_filter]
        refine filter_congr fun entry _ => ?_
        by_cases hentry : entry.1 = orderID
        · simp [hentry, Ne.symm heq]
        · simp [hentry]

/-- A refund takes what is outstanding of the order. -/
lemma owed_refund (calls : List PointsCall) (orderID projectType : String) :
    owed (calls ++ [.refund orderID projectType]) = owed calls -
      ((outstandingOf calls orderID).map Prod.snd).sum := by
  unfold owed outstandingOf
  rw [account_append, Account.perform]
  induction (account calls).outstanding with
  | nil => rfl
  | cons entry entries ih =>
    by_cases heq : entry.1 = orderID
    · rw [filter_cons_of_neg (by simpa using heq), filter_cons_of_pos (by simpa using heq)]
      simp only [map_cons, sum_cons]
      simp only [ih]
      ring
    · rw [filter_cons_of_pos (by simpa using heq), filter_cons_of_neg (by simpa using heq)]
      simp only [map_cons, sum_cons]
      simp only [ih]
      ring

end Account

/-! ## Conservation -/

section Conservation

variable {userID : ℤ} {credits : Credits} {calls : List PointsCall}

/-- A table has a deduction of an order exactly if one passes the filter. -/
lemma any_isOf_consume {l : Ledger} {orderID : String} {first : Option ℤ}
    (h : (l.filter (IsOf orderID .consume)).map (fun f => (f.userID, f.amount)) =
      (first.map fun amount => (userID, amount)).toList) :
    l.any (IsOf orderID .consume) = first.isSome := by
  cases first with
  | none =>
    rw [Option.isSome_none, any_eq_false]
    exact filter_eq_nil_iff.1 (map_eq_nil_iff.1 h)
  | some amount =>
    by_contra hnot
    have hnil : l.filter (IsOf orderID .consume) = [] := by
      rw [filter_eq_nil_iff]
      exact any_eq_false.1 (Bool.eq_false_iff.2 hnot)
    rw [hnil] at h
    cases h

/-- The table has the first deduction of each order. -/
lemma filter_performAll (userID : ℤ) (credits : Credits) (calls : List PointsCall)
    (orderID : String) :
    ((performAll userID credits.flows calls).filter (IsOf orderID .consume)).map
        (fun f => (f.userID, f.amount)) =
      ((firstAmount orderID calls).map fun amount => (userID, amount)).toList := by
  induction calls using reverseRecOn with
  | nil =>
    have hnone : credits.flows.filter (IsOf orderID .consume) = [] := by
      rw [filter_eq_nil_iff]
      intro f hf
      simp [IsOf, credits.isRefund f hf]
    rw [performAll, foldl_nil, hnone]
    rfl
  | append_singleton calls c ih =>
    rw [performAll_append, firstAmount_append]
    generalize performAll userID credits.flows calls = l at ih ⊢
    cases c with
    | deduct projectID orderID' projectType amount =>
      unfold perform
      dsimp only
      by_cases heq : orderID' = orderID
      · subst heq
        cases hfirst : firstAmount orderID' calls with
        | none =>
          -- the first deduction of the order
          rw [hfirst] at ih
          have hnil : l.filter (IsOf orderID' .consume) = [] := map_eq_nil_iff.1 ih
          rw [deduct_eq_ok.2 ⟨any_isOf_consume ih, rfl⟩]
          simp [hnil, IsOf, PointsCall.amountOf]
        | some amount' =>
          rw [hfirst] at ih
          rw [deduct_eq_error (any_isOf_consume ih)]
          exact ih
      · have hnone :
            firstAmount orderID [.deduct projectID orderID' projectType amount] = none := by
          simp [PointsCall.amountOf, heq]
        rw [hnone, Option.or_none, ← ih]
        cases hresult : deduct l userID projectID orderID' projectType amount with
        | error e => rfl
        | ok l' =>
          obtain ⟨-, rfl⟩ := deduct_eq_ok.1 hresult
          simp [IsOf, heq]
    | refund orderID' projectType =>
      unfold perform
      dsimp only
      have hright : firstAmount orderID [.refund orderID' projectType] = none := rfl
      rw [hright, Option.or_none, ← ih]
      cases hresult : refund l orderID' userID projectType with
      | error e => rfl
      | ok l' =>
        rcases refundByOrderID_cases hresult with ⟨rfl, -⟩ | ⟨consume, -, -, rfl⟩
        · rfl
        · rw [filter_map_rollBack, filter_append, filter_cons_of_neg, filter_nil, append_nil]
          simp [IsOf, refundRow]

/-- A deduction takes its amount from the balance, and it is owed. -/
lemma getBalance_performAll_deduct (userID : ℤ) (credits : Credits) (calls : List PointsCall)
    (projectID orderID projectType : String) (amount : ℤ) :
    getBalance (performAll userID credits.flows
        (calls ++ [.deduct projectID orderID projectType amount])) userID +
      owed (calls ++ [.deduct projectID orderID projectType amount]) =
        getBalance (performAll userID credits.flows calls) userID + owed calls := by
  have hfilter := filter_performAll userID credits calls orderID
  rw [performAll_append]
  generalize performAll userID credits.flows calls = l at hfilter ⊢
  unfold owed
  rw [account_append, Account.perform, perform]
  cases hfirst : firstAmount orderID calls with
  | none =>
    rw [hfirst] at hfilter
    have hnew : orderID ∉ (account calls).deducted := by
      rw [mem_deducted, hfirst]
      simp
    obtain ⟨l', hok⟩ : ∃ l', deduct l userID projectID orderID projectType amount = .ok l' :=
      ⟨_, deduct_eq_ok.2 ⟨any_isOf_consume hfilter, rfl⟩⟩
    rw [hok, if_neg hnew, getBalance_deduct hok]
    simp only [map_cons, sum_cons]
    ring
  | some amount' =>
    rw [hfirst] at hfilter
    have hold : orderID ∈ (account calls).deducted := by
      rw [mem_deducted, hfirst]
      rfl
    rw [deduct_eq_error (any_isOf_consume hfilter), if_pos hold]

/-- A refund adds nothing, or the amount twice. -/
lemma getBalance_performAll_refund (userID : ℤ) (credits : Credits) (calls : List PointsCall)
    (orderID projectType : String) :
    let before := getBalance (performAll userID credits.flows calls) userID
    let after := getBalance (performAll userID credits.flows
      (calls ++ [.refund orderID projectType])) userID
    after = before ∨ ∃ amount, firstAmount orderID calls = some amount ∧
      after = before + 2 * amount := by
  have hfilter := filter_performAll userID credits calls orderID
  rw [performAll_append]
  generalize performAll userID credits.flows calls = l at hfilter ⊢
  rw [perform]
  cases hresult : refund l orderID userID projectType with
  | error e => exact .inl rfl
  | ok l' =>
    cases hfirst : firstAmount orderID calls with
    | none =>
      rw [hfirst] at hfilter
      have hsame : refundByOrderID l orderID (backTitle projectType) = .ok l := by
        rw [refundByOrderID, map_eq_nil_iff.1 hfilter]
        simp
      rw [refund, hsame] at hresult
      cases hresult
      exact .inl rfl
    | some amount =>
      rw [hfirst] at hfilter
      rcases getBalance_refund hfilter hresult with h | h
      · exact .inl h
      · exact .inr ⟨amount, rfl, h⟩

/-- The balance is the credits without what is owed, after every one of the calls. -/
def Conserved (userID : ℤ) (credits : Credits) (calls : List PointsCall) : Prop :=
  ∀ done, done <+: calls →
    getBalance (performAll userID credits.flows done) userID =
      getBalance credits.flows userID - owed done

lemma conserved_of_nothingRefunded (h : NothingRefunded calls) :
    Conserved userID credits calls := by
  intro done hdone
  induction done using reverseRecOn with
  | nil => simp [performAll, owed, account]
  | append_singleton done c ih =>
    have ih := ih ((prefix_append done [c]).trans hdone)
    cases c with
    | deduct projectID orderID projectType amount =>
      have hstep :=
        getBalance_performAll_deduct userID credits done projectID orderID projectType amount
      linarith
    | refund orderID projectType =>
      obtain ⟨rest, hrest⟩ := hdone
      have hzero := h done orderID projectType rest (by rw [← hrest]; simp)
      -- nothing is outstanding of the order
      have howed : owed (done ++ [.refund orderID projectType]) = owed done := by
        rw [owed_refund]
        rcases outstanding_eq done orderID with heq | ⟨heq, -⟩
        · rw [heq]
          rcases hzero with hzero | hzero <;> simp [hzero]
        · simp [heq]
      rw [howed, ← ih]
      rcases getBalance_performAll_refund userID credits done orderID projectType with
        hsame | ⟨amount, hfirst, hchange⟩
      · exact hsame
      · obtain rfl : amount = 0 := by
          rw [hfirst] at hzero
          simpa using hzero
        rw [hchange]
        ring

lemma nothingRefunded_of_conserved (h : Conserved userID credits calls) :
    NothingRefunded calls := by
  intro before orderID projectType after hcalls
  -- along the first refund of a deduction
  induction hn : before.length using Nat.strongRecOn
    generalizing before orderID projectType after with
  | ind n ih =>
    subst hn
    cases hfirst : firstAmount orderID before with
    | none => exact .inl rfl
    | some amount =>
      right
      by_contra hne
      -- the order was not refunded before
      have hnever : ∀ p projectType q, before = p ++ .refund orderID projectType :: q →
          firstAmount orderID p = none := by
        intro p projectType' q hp
        have hlt : p.length < before.length := by
          rw [hp]
          simp
        rcases ih p.length hlt p orderID projectType' (q ++ .refund orderID projectType :: after)
          (by rw [hcalls, hp]; simp) rfl with hnone | hzero
        · exact hnone
        · rw [hp, firstAmount_append, hzero] at hfirst
          exact absurd hfirst.symm hne
      have howed : owed (before ++ [.refund orderID projectType]) = owed before - amount := by
        rw [owed_refund]
        rcases outstanding_eq before orderID with heq | ⟨-, p, projectType', q, heq, hp⟩
        · simp [heq, hfirst]
        · exact absurd (hnever p projectType' q heq) hp
      have hbefore := h before ⟨_, hcalls.symm⟩
      have hafter := h (before ++ [.refund orderID projectType]) ⟨after, by rw [hcalls]; simp⟩
      have hamount : amount ≠ 0 := fun hzero => hne (by rw [hzero])
      rcases getBalance_performAll_refund userID credits before orderID projectType with
        hsame | ⟨amount', hfirst', hchange⟩
      · exact hamount (by linarith)
      · rw [hfirst] at hfirst'
        cases hfirst'
        exact hamount (by linarith)

/-- **Conservation of points.** After every call the balance is the credits without the deductions
that are not refunded, if and only if no deduction of an amount other than zero is refunded. -/
theorem balance_conserved_iff (userID : ℤ) (credits : Credits) (calls : List PointsCall) :
    Conserved userID credits calls ↔ NothingRefunded calls :=
  ⟨nothingRefunded_of_conserved, conserved_of_nothingRefunded⟩

/-- 100 points, of which 10 are deducted for an order and refunded. -/
def refundedCalls : List PointsCall :=
  [.deduct "session" "session_1" "mix_video" 10, .refund "session_1" "mix_video"]

def hundred : Credits where
  flows := [⟨1, "seed", "seed", .refund, 100, "seed", .valid⟩]
  isRefund := by simp

/-- The refund adds 20 points, and the balance is 110 afterwards. -/
theorem refund_adds_twice :
    getBalance (performAll 1 hundred.flows refundedCalls) 1 = 110 ∧
      ¬ Conserved 1 hundred refundedCalls := by
  have hbalance : getBalance (performAll 1 hundred.flows refundedCalls) 1 = 110 := by decide
  refine ⟨hbalance, fun h => ?_⟩
  have hend := h refundedCalls (prefix_refl _)
  revert hend
  decide

end Conservation

end Yukino.CreativeAgent
