import Yukino.Tcc.TxManager

set_option autoImplicit false

/-!
# One outcome of a transaction

## Main definitions

* `listsFirst` — a read lists the given component first.
* `Inv` — what holds between any two steps if all reads do.

## Main results

* `one_outcome` — if all reads of the record list the same component first, no component
  is confirmed and another one cancelled, and `TXSubmit` is called with one outcome only.
* `split_outcome` — the two reads of one transaction list its components in different
  orders, and one component ends up confirmed and the other one cancelled.

## Design

`advanceProgress` stops at the first component that does not acknowledge. So if all drivers begin
with the same component, that component decides: it refuses the drivers of the other outcome, and
these never get to a second one. The manager takes the order from the record, and the
interface of the store promises none.
-/

namespace Yukino.Tcc

open List Function

/-! ## Components and records -/

/-- The state in which a driver leaves the components. -/
def outcome (success : Bool) : ComponentStatus :=
  if success then .confirmed else .canceled

lemma outcome_injective : Function.Injective outcome := by
  intro b b' h
  cases b <;> cases b' <;> first | rfl | cases h

lemma confirmOrCancel_eq (success : Bool) :
    confirmOrCancel success = settle (outcome success) (outcome !success) := by
  cases success with
  | false | true => rfl

section Settle

variable {success : Bool} {answer : Answer} {status : Option ComponentStatus}

/-- A component that has an outcome keeps it. -/
lemma confirmOrCancel_outcome (b : Bool) (h : status = some (outcome b)) :
    (confirmOrCancel success answer status).2 = some (outcome b) := by
  subst h
  cases success <;> cases b <;> cases answer <;> rfl

lemma confirmOrCancel_ack (h : (confirmOrCancel success answer status).1 = true) :
    (confirmOrCancel success answer status).2 = some (outcome success) := by
  rw [confirmOrCancel_eq] at h ⊢
  unfold settle at h ⊢
  split_ifs at h ⊢
  cases answer with
  | refused | unacked => cases h
  | acked => rfl

/-- A driver leaves a component as it is, or in the state of its own outcome. -/
lemma confirmOrCancel_or (success : Bool) (answer : Answer) (status : Option ComponentStatus) :
    (confirmOrCancel success answer status).2 = status ∨
      (confirmOrCancel success answer status).2 = some (outcome success) := by
  rw [confirmOrCancel_eq]
  unfold settle
  split_ifs
  · exact .inl rfl
  · cases answer with
    | refused => exact .inl rfl
    | unacked | acked => exact .inr rfl

/-- `Try` keeps an outcome, and makes only the one of a rejection. -/
lemma tryComponent_outcome {answer : TryAnswer} (b : Bool) (h : status = some (outcome b)) :
    (tryComponent answer status).2 = some (outcome b) := by
  subst h
  cases b <;> cases answer <;> rfl

lemma of_tryComponent_outcome {answer : TryAnswer} {b : Bool}
    (h : (tryComponent answer status).2 = some (outcome b)) :
    status = some (outcome b) ∨ b = false ∧ (tryComponent answer status).1 = false := by
  rcases status with _ | (_ | _ | _) <;> cases answer <;> cases b <;>
    simp_all [tryComponent, outcome]

end Settle

lemma getStatusLoop_eq_successful {createdAt createdBefore : ℤ} {hangingExist : Bool}
    {components : List ComponentTryEntity}
    (h : getStatusLoop createdAt createdBefore hangingExist components = .successful) :
    hangingExist = false ∧ ∀ e ∈ components, e.tryStatus = .successful := by
  induction components generalizing hangingExist with
  | nil =>
    unfold getStatusLoop at h
    split_ifs at h with hfail hhang
    exact ⟨Bool.eq_false_iff.2 hhang, fun e he => by cases he⟩
  | cons e components ih =>
    unfold getStatusLoop at h
    split_ifs at h with hfail
    obtain ⟨hflag, hall⟩ := ih h
    rw [Bool.or_eq_false_iff, decide_eq_false_iff_not, not_not] at hflag
    refine ⟨hflag.1, fun e' he' => ?_⟩
    rcases mem_cons.1 he' with rfl | he'
    · exact hflag.2
    · exact hall e' he'

/-! ## The invariant -/

/-- All components of the transaction were tried with success, as far as the store knows. -/
def AllSuccessful (cfg : Config) (s : State) : Prop :=
  ∀ x ∈ cfg.components, s.tryStatus x = .successful

/-- The `Try` of the component failed, and the store will never have it as successful. -/
def TryFailed (s : State) (x : String) : Prop :=
  s.tries x = .replied false ∨ s.tries x = .finished ∧ s.tryStatus x ≠ .successful

/-- The drivers begin with the component `a`, so one that is past it found it on its side. -/
def Driver.Sound (cfg : Config) (a : String) (s : State) : Driver → Prop
  | .read tx => (tx.components.map (·.componentID)).head? = some a ∧
    (tx.components.map (·.componentID)).Perm cfg.components ∧
    ∀ e ∈ tx.components, e.tryStatus = .successful → s.tryStatus e.componentID = .successful
  | .calling success rest => rest ⊆ cfg.components ∧
    (rest.head? = some a ∨ s.component a = some (outcome success)) ∧
    (success = true → AllSuccessful cfg s)
  | .returned => True

structure Inv (cfg : Config) (a : String) (s : State) : Prop where
  finished : ∀ x, s.tryStatus x = .successful → s.tries x = .finished
  mem_components : ∀ x b, s.component x = some (outcome b) → x ∈ cfg.components
  confirmed : ∀ x, s.component x = some .confirmed →
    s.component a = some .confirmed ∧ AllSuccessful cfg s
  canceled : ∀ x, s.component x = some .canceled → s.component a = some .canceled ∨ TryFailed s x
  submitted : ∀ b ∈ s.submitted, s.component a = some (outcome b)
  drivers : ∀ d ∈ s.drivers, d.Sound cfg a s

/-- What no step takes back. -/
structure Evolves (s s' : State) : Prop where
  outcome : ∀ x b, s.component x = some (outcome b) → s'.component x = some (outcome b)
  successful : ∀ x, s.tryStatus x = .successful → s'.tryStatus x = .successful
  tryFailed : ∀ x, TryFailed s x → TryFailed s' x

section Evolves

variable {cfg : Config} {a : String} {s s' : State}

lemma Evolves.allSuccessful (h : Evolves s s') (hall : AllSuccessful cfg s) :
    AllSuccessful cfg s' :=
  fun x hx => h.successful x (hall x hx)

lemma Evolves.sound (h : Evolves s s') {d : Driver} (hd : d.Sound cfg a s) : d.Sound cfg a s' := by
  cases d with
  | read tx =>
    obtain ⟨hhead, hperm, hsucc⟩ := hd
    exact ⟨hhead, hperm, fun e he hes => h.successful _ (hsucc e he hes)⟩
  | calling success rest =>
    obtain ⟨hrest, ha, hall⟩ := hd
    exact ⟨hrest, ha.imp_right (h.outcome a success), fun hs => h.allSuccessful (hall hs)⟩
  | returned => trivial

/-- The tries and the record stay as they are. -/
lemma Evolves.of_eq (htries : s'.tries = s.tries) (hstatus : s'.tryStatus = s.tryStatus)
    (houtcome : ∀ x b, s.component x = some (Tcc.outcome b) →
      s'.component x = some (Tcc.outcome b)) : Evolves s s' := by
  refine ⟨houtcome, fun x hx => ?_, fun x hx => ?_⟩
  · rw [hstatus]
    exact hx
  · unfold TryFailed
    rw [htries, hstatus]
    exact hx

/-- A step after which every outcome, submission and driver is an old one or fits. -/
lemma Inv.of_evolves (hinv : Inv cfg a s) (h : Evolves s s')
    (hfinished : ∀ x, s'.tryStatus x = .successful → s'.tries x = .finished)
    (hcomponent : ∀ x b, s'.component x = some (outcome b) → s.component x = some (outcome b) ∨
      x ∈ cfg.components ∧ (s'.component a = some (outcome b) ∧ (b = true → AllSuccessful cfg s') ∨
        b = false ∧ TryFailed s' x))
    (hsubmitted : ∀ b ∈ s'.submitted, b ∈ s.submitted ∨ s'.component a = some (outcome b))
    (hdrivers : ∀ d ∈ s'.drivers, d ∈ s.drivers ∨ d.Sound cfg a s') : Inv cfg a s' where
  finished := hfinished
  mem_components x b hx := (hcomponent x b hx).elim (hinv.mem_components x b) And.left
  confirmed x hx := by
    rcases hcomponent x true hx with hx | ⟨-, ⟨ha, hall⟩ | ⟨hb, -⟩⟩
    · exact (hinv.confirmed x hx).imp (h.outcome a true) h.allSuccessful
    · exact ⟨ha, hall rfl⟩
    · cases hb
  canceled x hx := by
    rcases hcomponent x false hx with hx | ⟨-, ⟨ha, -⟩ | ⟨-, hfailed⟩⟩
    · exact (hinv.canceled x hx).imp (h.outcome a false) (h.tryFailed x)
    · exact .inl ha
    · exact .inr hfailed
  submitted b hb := (hsubmitted b hb).elim (fun hb => h.outcome a b (hinv.submitted b hb)) id
  drivers d hd := (hdrivers d hd).elim (fun hd => h.sound (hinv.drivers d hd)) id

end Evolves

/-! ## Steps -/

/-- A read of the record lists the component first. -/
def listsFirst (a : String) (_ : State) : Event → Bool
  | .getTX order => order.head? = some a
  | .getHangingTXs order => order.head? = some a
  | _ => true

section Steps

variable {cfg : Config} {a : String} {s : State}

/-- The `Try` of a component can only cancel it, when it rejects. -/
lemma Inv.tryOne (hinv : Inv cfg a s) {x : String} (answer : TryAnswer)
    (hx : x ∈ cfg.components) (htry : s.tries x = .trying) :
    Inv cfg a { s with
      component := Function.update s.component x (tryComponent answer (s.component x)).2
      tries := Function.update s.tries x
        (.replied (tryComponent answer (s.component x)).1) } := by
  have hnot : s.tryStatus x ≠ .successful := fun h => by
    rw [hinv.finished x h] at htry
    cases htry
  have hev : Evolves s { s with
      component := Function.update s.component x (tryComponent answer (s.component x)).2
      tries := Function.update s.tries x (.replied (tryComponent answer (s.component x)).1) } := by
    refine ⟨fun y b hy => ?_, fun y hy => hy, fun y hy => ?_⟩
    · by_cases hyx : y = x
      · subst hyx
        simpa using tryComponent_outcome b hy
      · simpa [hyx] using hy
    · have hyx : y ≠ x := by
        rintro rfl
        unfold TryFailed at hy
        rw [htry] at hy
        rcases hy with hy | ⟨hy, -⟩ <;> cases hy
      unfold TryFailed at hy ⊢
      simpa [hyx] using hy
  -- an outcome of `x` is an old one, or that of a rejection
  have hold : ∀ y b, Function.update s.component x (tryComponent answer (s.component x)).2 y =
      some (outcome b) → s.component y = some (outcome b) ∨
        y = x ∧ b = false ∧ (tryComponent answer (s.component x)).1 = false := by
    intro y b hy
    by_cases hyx : y = x
    · subst hyx
      rw [update_self] at hy
      exact (of_tryComponent_outcome hy).imp_right fun h => ⟨rfl, h⟩
    · rw [update_of_ne hyx] at hy
      exact .inl hy
  refine hinv.of_evolves hev (fun y hy => ?_) (fun y b hy => (hold y b hy).imp_right ?_)
    (fun _ hb => .inl hb) fun _ hd => .inl hd
  · have hyx : y ≠ x := by
      rintro rfl
      exact hnot hy
    simpa [hyx] using hinv.finished y hy
  · rintro ⟨rfl, hb, hack⟩
    refine ⟨hx, .inr ⟨hb, .inl ?_⟩⟩
    rw [← hack]
    exact update_self ..

/-- `TXUpdate` writes a record that is still hanging, and a success only after an ACK. -/
lemma Inv.update (hinv : Inv cfg a s) {x : String} {ack : Bool} (done : Bool)
    (htry : s.tries x = .replied ack) : Inv cfg a (update s x ack done) := by
  have hstatus : ∀ y, y ≠ x → (Tcc.update s x ack done).tryStatus y = s.tryStatus y := by
    intro y hyx
    unfold Tcc.update
    cases done <;> simp [hyx]
  have htries : ∀ y, y ≠ x → (Tcc.update s x ack done).tries y = s.tries y :=
    fun y hyx => update_of_ne hyx ..
  have hx : (Tcc.update s x ack done).tries x = .finished := update_self ..
  have hnot : s.tryStatus x ≠ .successful := fun h => by
    rw [hinv.finished x h] at htry
    cases htry
  have hev : Evolves s (Tcc.update s x ack done) := by
    refine ⟨fun y b hy => hy, fun y hy => ?_, fun y hy => ?_⟩
    · have hyx : y ≠ x := by
        rintro rfl
        exact hnot hy
      rw [hstatus y hyx]
      exact hy
    · by_cases hyx : y = x
      · subst hyx
        unfold TryFailed at hy
        rw [htry] at hy
        rcases hy with hy | ⟨hy, -⟩
        · cases hy
          refine .inr ⟨hx, ?_⟩
          unfold Tcc.update
          cases done <;> simp [hnot]
        · cases hy
      · unfold TryFailed at hy ⊢
        rw [hstatus y hyx, htries y hyx]
        exact hy
  refine hinv.of_evolves hev (fun y hy => ?_) (fun _ _ h => .inl h) (fun _ h => .inl h)
    fun _ hd => .inl hd
  by_cases hyx : y = x
  · rw [hyx]
    exact hx
  · rw [hstatus y hyx] at hy
    rw [htries y hyx]
    exact hinv.finished y hy

/-- A read adds a driver. -/
lemma Inv.read (hinv : Inv cfg a s) {order : List String} (hperm : order.Perm cfg.components)
    (hhead : order.head? = some a) (callerRead : Bool) :
    Inv cfg a { s with callerRead, drivers := s.drivers ++ [.read (snapshot cfg s order)] } := by
  have hids : (snapshot cfg s order).components.map (·.componentID) = order := by
    unfold snapshot
    rw [map_map]
    exact map_id order
  refine hinv.of_evolves (.of_eq rfl rfl fun _ _ h => h) hinv.finished (fun _ _ h => .inl h)
    (fun _ h => .inl h) fun d hd => ?_
  rcases mem_append.1 hd with hd | hd
  · exact .inl hd
  · rw [mem_singleton.1 hd]
    refine .inr ⟨by rw [hids]; exact hhead, by rw [hids]; exact hperm, fun e he hsucc => ?_⟩
    obtain ⟨x, -, rfl⟩ := mem_map.1 he
    exact hsucc

/-- A driver moves on, and nothing else changes. -/
lemma Inv.setDriver (hinv : Inv cfg a s) (k : ℕ) {d : Driver} (hd : d.Sound cfg a s) :
    Inv cfg a { s with drivers := s.drivers.set k d } := by
  have hev : Evolves s { s with drivers := s.drivers.set k d } := .of_eq rfl rfl fun _ _ h => h
  refine hinv.of_evolves hev hinv.finished (fun _ _ h => .inl h) (fun _ h => .inl h)
    fun d' hd' => ?_
  rcases mem_or_eq_of_mem_set hd' with hd' | rfl
  · exact .inl hd'
  · exact .inr (hev.sound hd)

/-- A driver decides: for success only if it has read every `Try` as successful. -/
lemma sound_decideStatus {tx : Transaction} (h : (Driver.read tx).Sound cfg a s) :
    (decideStatus cfg s tx).Sound cfg a s := by
  obtain ⟨hhead, hperm, hsucc⟩ := h
  unfold decideStatus
  split
  · trivial
  · next hstatus =>
    refine ⟨hperm.subset, .inl hhead, fun _ x hx => ?_⟩
    obtain ⟨e, he, rfl⟩ := mem_map.1 (hperm.mem_iff.2 hx)
    exact hsucc e he ((getStatusLoop_eq_successful hstatus).2 e he)
  · exact ⟨hperm.subset, .inl hhead, fun h => by cases h⟩

/-- **A driver calls a component.** If it is past `a`, then `a` is on its side; otherwise the
component is `a` itself. -/
lemma Inv.callNext (hinv : Inv cfg a s) (k : ℕ) {success : Bool} {x : String}
    {rest : List String} (answer : Answer)
    (h : (Driver.calling success (x :: rest)).Sound cfg a s) :
    Inv cfg a (callNext cfg s k success x rest answer) := by
  unfold Tcc.callNext
  split_ifs
  swap
  · exact hinv.setDriver k trivial
  obtain ⟨hsub, ha, hall⟩ := h
  dsimp only
  generalize hs' : ({ s with
      component := Function.update s.component x
        (confirmOrCancel success answer (s.component x)).2
      drivers := s.drivers.set k (if (confirmOrCancel success answer (s.component x)).1 = true
        then .calling success rest else .returned) } : State) = s'
  have hcomp : s'.component = Function.update s.component x
      (confirmOrCancel success answer (s.component x)).2 := by rw [← hs']
  have hev : Evolves s s' := by
    refine Evolves.of_eq (by rw [← hs']) (by rw [← hs']) fun y b hy => ?_
    rw [hcomp]
    by_cases hyx : y = x
    · subst hyx
      rw [update_self]
      exact confirmOrCancel_outcome b hy
    · rw [update_of_ne hyx]
      exact hy
  -- a new outcome of a component is that of the driver, and then `a` has it too
  have hnew : ∀ y b, s'.component y = some (outcome b) → s.component y = some (outcome b) ∨
      y = x ∧ b = success ∧ s'.component a = some (outcome b) := by
    intro y b hy
    by_cases hyx : y = x
    · subst hyx
      rw [hcomp, update_self] at hy
      rcases confirmOrCancel_or success answer (s.component y) with hor | hor
      · rw [hor] at hy
        exact .inl hy
      · rw [hor] at hy
        have hb : b = success := (outcome_injective (Option.some.inj hy)).symm
        subst hb
        refine .inr ⟨rfl, rfl, ?_⟩
        rcases ha with ha | ha
        · cases ha
          rw [hcomp, update_self]
          exact hor
        · exact hev.outcome a b ha
    · rw [hcomp, update_of_ne hyx] at hy
      exact .inl hy
  refine hinv.of_evolves hev ?_ (fun y b hy => (hnew y b hy).imp_right ?_) (fun b hb => .inl ?_)
    fun d hd => ?_
  · rw [← hs']
    exact hinv.finished
  · rintro ⟨rfl, rfl, ha'⟩
    exact ⟨hsub (mem_cons_self ..), .inl ⟨ha', fun hb => hev.allSuccessful (hall hb)⟩⟩
  · rw [← hs'] at hb
    exact hb
  · rw [← hs'] at hd
    refine (mem_or_eq_of_mem_set hd).imp_right ?_
    rintro rfl
    split_ifs with hack
    · refine ⟨fun y hy => hsub (mem_cons_of_mem _ hy), .inr ?_,
        fun hs => hev.allSuccessful (hall hs)⟩
      rcases ha with ha | ha
      · cases ha
        rw [hcomp, update_self]
        exact confirmOrCancel_ack hack
      · exact hev.outcome a success ha
    · trivial

/-- A driver that submits has all components behind it, so `a` is on its side. -/
lemma Inv.submit (hinv : Inv cfg a s) (k : ℕ) {success : Bool} (done : Bool)
    (h : (Driver.calling success []).Sound cfg a s) : Inv cfg a (submit s k success done) := by
  have ha : s.component a = some (outcome success) := h.2.1.resolve_left nofun
  refine hinv.of_evolves (.of_eq rfl rfl fun _ _ h => h) hinv.finished (fun _ _ h => .inl h)
    (fun b hb => (mem_append.1 hb).imp_right fun hb => ?_)
    fun d hd => (mem_or_eq_of_mem_set hd).imp_right ?_
  · rw [mem_singleton.1 hb]
    exact ha
  · rintro rfl
    trivial

/-- **Every step keeps the invariant**, if reads list `a` first. -/
lemma Inv.step (s : State) (e : Event) (s' : State) (hinv : Inv cfg a s)
    (hok : listsFirst a s e = true) (hstep : step cfg s e = some s') : Inv cfg a s' := by
  have hdriver : ∀ {k : ℕ} {d : Driver}, s.drivers[k]? = some d → d.Sound cfg a s :=
    fun hd => hinv.drivers _ (mem_of_getElem? hd)
  unfold Tcc.step at hstep
  cases e with
  | tick d =>
    cases hstep
    exact hinv.of_evolves (.of_eq rfl rfl fun _ _ h => h) hinv.finished (fun _ _ h => .inl h)
      (fun _ h => .inl h) fun _ hd => .inl hd
  | tryOne x answer =>
    dsimp only at hstep
    split_ifs at hstep with h
    cases hstep
    exact hinv.tryOne answer h.1 h.2
  | txUpdate x done =>
    dsimp only at hstep
    split at hstep <;> cases hstep
    next htry => exact hinv.update done htry
  | getTX order =>
    dsimp only at hstep
    split_ifs at hstep with h
    cases hstep
    exact hinv.read h.1 (of_decide_eq_true hok) true
  | getHangingTXs order =>
    dsimp only at hstep
    split_ifs at hstep with h
    cases hstep
    exact hinv.read h.1 (of_decide_eq_true hok) s.callerRead
  | decide k =>
    dsimp only at hstep
    split at hstep <;> cases hstep
    next hd => exact hinv.setDriver k (sound_decideStatus (hdriver hd))
  | call k answer =>
    dsimp only at hstep
    split at hstep <;> cases hstep
    next hd => exact hinv.callNext k answer (hdriver hd)
  | txSubmit k done =>
    dsimp only at hstep
    split at hstep <;> cases hstep
    next hd => exact hinv.submit k done (hdriver hd)

lemma inv_initial : Inv cfg a (initial cfg) :=
  ⟨nofun, nofun, nofun, nofun, nofun, nofun⟩

end Steps

/-! ## Runs -/

/-- **A transaction has one outcome**, if all reads of its record list the same component first:
no component is confirmed while another one is cancelled, and `TXSubmit` is not called with both
outcomes.

**Proof sketch.** Any confirmed component means that `a` is confirmed and that every `Try` was a
success. A cancelled component means that `a` is cancelled, or that its own `Try` failed. The last
is not possible then, so `a` would be both. Each submitted outcome is that of `a`. -/
theorem one_outcome (cfg : Config) (a : String) {es : List Event} {s : State}
    (hfirst : Runs.along (step cfg) (listsFirst a) (initial cfg) es = true)
    (hrun : Runs.run (step cfg) (initial cfg) es = some s) :
    (∀ x y, s.component x = some .confirmed → s.component y ≠ some .canceled) ∧
      ¬ (true ∈ s.submitted ∧ false ∈ s.submitted) := by
  have hinv : Inv cfg a s := Runs.along_invariant Inv.step inv_initial hfirst hrun
  constructor
  · intro x y hx hy
    obtain ⟨ha, hall⟩ := hinv.confirmed x hx
    have hsucc : s.tryStatus y = .successful := hall y (hinv.mem_components y false hy)
    rcases hinv.canceled y hy with hay | hreplied | ⟨-, hnot⟩
    · rw [ha] at hay
      cases hay
    · rw [hinv.finished y hsucc] at hreplied
      cases hreplied
    · exact hnot hsucc
  · rintro ⟨htrue, hfalse⟩
    have hboth := (hinv.submitted true htrue).symm.trans (hinv.submitted false hfalse)
    cases hboth

/-- A transaction of two components, with the default timeout in seconds. -/
def twoComponents : Config where
  timeout := 5
  createdAt := 0
  registered := fun x => x = "account" || x = "stock"
  reqs := [some "account", some "stock"]
  components := ["account", "stock"]
  getComponents_eq := rfl

/-- Both components are tried, and the monitor reads the record before the second success is in it.
The caller decides for success in time, and the monitor for failure after the timeout. -/
def lateMonitor (order : List String) : List Event :=
  [.tryOne "account" .acked, .txUpdate "account" true, .tryOne "stock" .acked,
    .getHangingTXs order, .txUpdate "stock" true, .getTX ["account", "stock"], .decide 1,
    .call 1 .acked, .tick 6, .decide 0, .call 0 .acked, .call 1 .acked]

theorem one_outcome_lateMonitor :
    ∃ s, Runs.run (step twoComponents) (initial twoComponents)
        (lateMonitor ["account", "stock"] ++ [.txSubmit 1 true]) = some s ∧
      s.component "account" = some .confirmed ∧ s.component "stock" = some .confirmed ∧
      ∀ x y, s.component x = some .confirmed → s.component y ≠ some .canceled := by
  obtain ⟨s, hrun, haccount, hstock⟩ : ∃ s, Runs.run (step twoComponents) (initial twoComponents)
      (lateMonitor ["account", "stock"] ++ [.txSubmit 1 true]) = some s ∧
        s.component "account" = some .confirmed ∧ s.component "stock" = some .confirmed := by
    decide +kernel
  exact ⟨s, hrun, haccount, hstock,
    (one_outcome twoComponents "account" (by decide +kernel) hrun).1⟩

/-- The monitor's read lists the components the other way round. -/
theorem split_outcome :
    ∃ s, Runs.run (step twoComponents) (initial twoComponents)
        (lateMonitor ["stock", "account"]) = some s ∧
      s.component "account" = some .confirmed ∧ s.component "stock" = some .canceled := by
  decide +kernel

end Yukino.Tcc
