import LfFederate.Run
import LfFederate.Wire
import Mathlib.Data.List.Range

/-!
The port scans of `create_server` and `connect_to_rti`.

With no port specified (port `0`), `create_server` binds its server socket to the first port
from `STARTING_PORT` on where `bind` succeeds, and `connect_to_rti` connects to the first port
from `STARTING_PORT` on where an RTI of its federation answers. After a failure both loops move
to the next port while the port is within `[STARTING_PORT, STARTING_PORT + PORT_RANGE_LIMIT]`,
and they test the range before the increment: a failure at the last port of the range moves on
to `STARTING_PORT + PORT_RANGE_LIMIT + 1`, which is tried too. A scan pass of `connect_to_rti`
is therefore `PORT_RANGE_LIMIT + 2` attempts long before it sleeps and wraps back. A rejection by
an RTI of another federation moves the port on with no range test and no count, also where a
port was specified.

The constants live in `rti.h`, which is not part of the source; they are variables here. The
outcome of each `bind`, `connect` and handshake is a step of the environment.
-/

namespace LfFederate.PortScan

open Wire

/-- Modelled from the spec: the causes of a `REJECT` that `connect_to_rti` takes for a wrong
port. Their values live in `rti.h`. -/
structure Causes where
  FEDERATION_ID_DOES_NOT_MATCH : UInt8
  WRONG_SERVER : UInt8

variable (STARTING_PORT PORT_RANGE_LIMIT : ℕ)

/-- The test both loops make after a failure on `port`: no port was given and `port` lies in
`[STARTING_PORT, STARTING_PORT + PORT_RANGE_LIMIT]`, so the scan moves on to `port + 1`. -/
def scanOn (specificPortGiven : Bool) (port : ℕ) : Bool :=
  !specificPortGiven && STARTING_PORT ≤ port && port ≤ STARTING_PORT + PORT_RANGE_LIMIT

lemma scanOn_iff {specificPortGiven : Bool} {port : ℕ} :
    scanOn STARTING_PORT PORT_RANGE_LIMIT specificPortGiven port = true ↔
      specificPortGiven = false ∧ STARTING_PORT ≤ port ∧
        port ≤ STARTING_PORT + PORT_RANGE_LIMIT := by
  simp [scanOn, and_assoc]

/-! ### `create_server` -/

/-- Where `create_server` is: at a call of `bind`, past its loop with a bound socket, or exited
with "Cannot find a usable port" or "Specified port is not available". -/
inductive ServerPc
  | binding
  | bound
  | exited
  deriving DecidableEq, Repr

/-- Where `create_server` is, the port it binds next, and the ports passed to `bind`, in
order. -/
structure Server where
  pc : ServerPc
  port : ℕ
  tried : List ℕ
  deriving DecidableEq, Repr

def Server.init (specifiedPort : ℕ) : Server :=
  ⟨.binding, if specifiedPort = 0 then STARTING_PORT else specifiedPort, []⟩

/-- A call of `bind` on `s.port`, which succeeds when `ok`, and the test of the loop after it. -/
def bindStep (specifiedPort : ℕ) (s : Server) (ok : Bool) : Option Server :=
  if s.pc = .binding then
    some (if ok then { s with pc := .bound, tried := s.tried ++ [s.port] }
      else if scanOn STARTING_PORT PORT_RANGE_LIMIT (specifiedPort != 0) s.port then
        { s with port := s.port + 1, tried := s.tried ++ [s.port] }
      else { s with pc := .exited, tried := s.tried ++ [s.port] })
  else none

def ServerReachable (specifiedPort : ℕ) (s : Server) : Prop :=
  ∃ oks, runSteps (bindStep STARTING_PORT PORT_RANGE_LIMIT specifiedPort) (fun _ _ => true)
    (Server.init STARTING_PORT specifiedPort) oks = some s

lemma bind_fails {port : ℕ} (k : ℕ) (tried : List ℕ) (h0 : STARTING_PORT ≤ port)
    (hk : port + k ≤ STARTING_PORT + PORT_RANGE_LIMIT + 1) :
    runSteps (bindStep STARTING_PORT PORT_RANGE_LIMIT 0) (fun _ _ => true)
        ⟨.binding, port, tried⟩ (List.replicate k false) =
      some ⟨.binding, port + k, tried ++ List.range' port k⟩ := by
  induction k generalizing port tried with
  | zero => simp [runSteps]
  | succ k ih =>
    have hon : scanOn STARTING_PORT PORT_RANGE_LIMIT false port = true :=
      (scanOn_iff _ _).mpr ⟨rfl, h0, by omega⟩
    simp only [List.replicate_succ, runSteps, if_true, bindStep, bne_self_eq_false, hon,
      Bool.false_eq_true, if_false, Option.some_bind]
    rw [@ih (port + 1) (tried ++ [port]) (by omega) (by omega)]
    simp only [List.append_assoc, List.singleton_append, List.range'_succ, Nat.add_right_comm]
    rfl

/-- What `create_server` keeps, a port given or not: it has tried the ports from its first one on,
one after the other, and no more than its budget, the port given or, with none given, the ports
up to one past the range; while it binds, the next port follows them, within the budget. -/
def Consecutive (specifiedPort : ℕ) (s : Server) : Prop :=
  s.tried = List.range' (Server.init STARTING_PORT specifiedPort).port s.tried.length ∧
  (s.pc = .binding →
    s.port = (Server.init STARTING_PORT specifiedPort).port + s.tried.length ∧
    s.tried.length + 1 ≤ if specifiedPort = 0 then PORT_RANGE_LIMIT + 2 else 1) ∧
  s.tried.length ≤ if specifiedPort = 0 then PORT_RANGE_LIMIT + 2 else 1

lemma Consecutive.step {specifiedPort : ℕ} {s s' : Server} {ok : Bool}
    (hs : Consecutive STARTING_PORT PORT_RANGE_LIMIT specifiedPort s)
    (h : bindStep STARTING_PORT PORT_RANGE_LIMIT specifiedPort s ok = some s') :
    Consecutive STARTING_PORT PORT_RANGE_LIMIT specifiedPort s' := by
  simp only [bindStep, Option.ite_none_right_eq_some, Option.some.injEq] at h
  obtain ⟨hpc, rfl⟩ := h
  obtain ⟨htried, hrun, -⟩ := hs
  obtain ⟨hport, hbudget⟩ := hrun hpc
  -- every outcome tries the next port of the scan
  have hnext : s.tried ++ [s.port] =
      List.range' (Server.init STARTING_PORT specifiedPort).port (s.tried.length + 1) := by
    rw [List.range'_concat, Nat.one_mul, ← htried, hport]
  have hlen : (s.tried ++ [s.port]).length = s.tried.length + 1 := List.length_append _ _
  split_ifs with hok hon
  · exact ⟨by rw [hlen]; exact hnext, nofun, by rw [hlen]; exact hbudget⟩
  · -- no port was given and the scan moves on within the range
    obtain ⟨hsp, -, hhi⟩ := (scanOn_iff _ _).mp hon
    have h0 : specifiedPort = 0 := by simpa using hsp
    refine ⟨by rw [hlen]; exact hnext, fun _ => ?_, by rw [hlen]; exact hbudget⟩
    simp only [Server.init, h0, if_true] at hport ⊢
    omega
  · exact ⟨by rw [hlen]; exact hnext, nofun, by rw [hlen]; exact hbudget⟩

/-- **`create_server` tries consecutive ports, within its budget.** Whatever `bind` answers, the
ports `create_server(specifiedPort)` has tried are, in order, the port given, or with none given
the ports from `STARTING_PORT` on, one after the other; it tries at most the one port given, and
at most `PORT_RANGE_LIMIT + 2` ports when none was given. -/
theorem create_server_tries_consecutive_ports {specifiedPort : ℕ} {s : Server}
    (h : ServerReachable STARTING_PORT PORT_RANGE_LIMIT specifiedPort s) :
    s.tried = List.range' (if specifiedPort = 0 then STARTING_PORT else specifiedPort)
        s.tried.length ∧
      s.tried.length ≤ if specifiedPort = 0 then PORT_RANGE_LIMIT + 2 else 1 := by
  obtain ⟨oks, h⟩ := h
  have hinit : Consecutive STARTING_PORT PORT_RANGE_LIMIT specifiedPort
      (Server.init STARTING_PORT specifiedPort) :=
    ⟨rfl, fun _ => ⟨rfl, by simp only [Server.init, List.length_nil]; split_ifs <;> omega⟩,
      Nat.zero_le _⟩
  obtain ⟨htried, -, hlen⟩ :=
    runSteps_invariant _ _ (fun _ _ _ hs _ => Consecutive.step _ _ hs) hinit h
  exact ⟨htried, hlen⟩

theorem create_server_tries_consecutive_ports_third :
    ServerReachable 100 3 0 ⟨.bound, 102, [100, 101, 102]⟩ ∧
      [100, 101, 102] = List.range' (if 0 = 0 then 100 else 0) [100, 101, 102].length ∧
      [100, 101, 102].length ≤ if 0 = 0 then 3 + 2 else 1 :=
  have h : ServerReachable 100 3 0 ⟨.bound, 102, [100, 101, 102]⟩ := ⟨[false, false, true], rfl⟩
  ⟨h, create_server_tries_consecutive_ports 100 3 h⟩

/-! ### `connect_to_rti` -/

/-- What the environment does in one pass of the loop of `connect_to_rti`: `connect` fails;
`connect` succeeds, the `FED_ID` handshake is written, and the RTI answers `response`, followed,
where that is `REJECT`, by the cause byte `cause`; or `socket`, `gethostbyname`, or a write or
read of the handshake fails, and the process exits. -/
inductive Attempt
  | refused
  | answered (response cause : UInt8)
  | failure
  deriving DecidableEq, Repr

/-- What `connect_to_rti` does that its environment sees: a `connect`, and the sleep of
`CONNECT_RETRY_INTERVAL` after a failed pass. -/
inductive Event
  | connect (port : ℕ)
  | sleep
  deriving DecidableEq, Repr

inductive RtiPc
  | connecting
  | connected
  | exited
  deriving DecidableEq, Repr

structure Rti where
  pc : RtiPc
  port : ℕ
  countRetries : ℕ
  log : List Event
  deriving DecidableEq, Repr

def Rti.init (port : ℕ) : Rti :=
  ⟨.connecting, if port = 0 then STARTING_PORT else port, 0, []⟩

variable (CONNECT_NUM_RETRIES : ℕ)

/-- The end of a pass whose `connect` failed where the scan does not move on: a pass that ran
past the range starts again at `STARTING_PORT`, the retry is counted, and the function gives up
or sleeps. -/
def retry (specificPortGiven : Bool) (s : Rti) : Rti :=
  let port :=
    if !specificPortGiven && s.port == STARTING_PORT + PORT_RANGE_LIMIT + 1 then STARTING_PORT
    else s.port
  if s.countRetries + 1 > CONNECT_NUM_RETRIES then
    { s with pc := .exited, port := port, countRetries := s.countRetries + 1 }
  else { s with port := port, countRetries := s.countRetries + 1, log := s.log ++ [.sleep] }

variable (c : Codes) (causes : Causes)

/-- One pass of the loop of `connect_to_rti`, `specificPortGiven` where the function was given a
port. -/
def connectStep (specificPortGiven : Bool) (s : Rti) (a : Attempt) : Option Rti :=
  if s.pc = .connecting then
    some <| match a with
    | .failure => { s with pc := .exited }
    | .refused =>
      if scanOn STARTING_PORT PORT_RANGE_LIMIT specificPortGiven s.port then
        { s with port := s.port + 1, log := s.log ++ [.connect s.port] }
      else
        retry STARTING_PORT PORT_RANGE_LIMIT CONNECT_NUM_RETRIES specificPortGiven
          { s with log := s.log ++ [.connect s.port] }
    | .answered response cause =>
      if response = c.REJECT then
        if cause = causes.FEDERATION_ID_DOES_NOT_MATCH ∨ cause = causes.WRONG_SERVER then
          { s with port := s.port + 1, log := s.log ++ [.connect s.port] }
        else { s with pc := .exited, log := s.log ++ [.connect s.port] }
      else { s with pc := .connected, log := s.log ++ [.connect s.port] }
  else none

def RtiReachable (port : ℕ) (s : Rti) : Prop :=
  ∃ as, runSteps
    (connectStep STARTING_PORT PORT_RANGE_LIMIT CONNECT_NUM_RETRIES c causes (port != 0))
    (fun _ _ => true) (Rti.init STARTING_PORT port) as = some s

lemma connect_refused {port : ℕ} (k countRetries : ℕ) (log : List Event)
    (h0 : STARTING_PORT ≤ port) (hk : port + k ≤ STARTING_PORT + PORT_RANGE_LIMIT + 1) :
    runSteps (connectStep STARTING_PORT PORT_RANGE_LIMIT CONNECT_NUM_RETRIES c causes false)
        (fun _ _ => true) ⟨.connecting, port, countRetries, log⟩ (List.replicate k .refused) =
      some ⟨.connecting, port + k, countRetries, log ++ (List.range' port k).map .connect⟩ := by
  induction k generalizing port log with
  | zero => simp [runSteps]
  | succ k ih =>
    have hon : scanOn STARTING_PORT PORT_RANGE_LIMIT false port = true :=
      (scanOn_iff _ _).mpr ⟨rfl, h0, by omega⟩
    simp only [List.replicate_succ, runSteps, if_true, connectStep, hon, Option.some_bind]
    rw [@ih (port + 1) (log ++ [Event.connect port]) (by omega) (by omega)]
    simp only [List.append_assoc, List.singleton_append, List.range'_succ, List.map_cons,
      Nat.add_right_comm]
    rfl

lemma bind_all_fail :
    runSteps (bindStep STARTING_PORT PORT_RANGE_LIMIT 0) (fun _ _ => true)
        (Server.init STARTING_PORT 0) (List.replicate (PORT_RANGE_LIMIT + 2) false) =
      some ⟨.exited, STARTING_PORT + PORT_RANGE_LIMIT + 1,
        List.range' STARTING_PORT (PORT_RANGE_LIMIT + 2)⟩ := by
  have hoff : scanOn STARTING_PORT PORT_RANGE_LIMIT false
      (STARTING_PORT + (PORT_RANGE_LIMIT + 1)) = false := by
    simp [scanOn]
  rw [List.replicate_succ', runSteps_append, Server.init, if_pos rfl,
    bind_fails _ _ _ [] le_rfl (by omega)]
  simp [runSteps, bindStep, hoff, List.range'_concat, Nat.add_assoc]

lemma connect_first_pass :
    runSteps (connectStep STARTING_PORT PORT_RANGE_LIMIT CONNECT_NUM_RETRIES c causes false)
        (fun _ _ => true) (Rti.init STARTING_PORT 0)
        (List.replicate (PORT_RANGE_LIMIT + 2) .refused) =
      some (retry STARTING_PORT PORT_RANGE_LIMIT CONNECT_NUM_RETRIES false
        ⟨.connecting, STARTING_PORT + PORT_RANGE_LIMIT + 1, 0,
          (List.range' STARTING_PORT (PORT_RANGE_LIMIT + 2)).map .connect⟩) := by
  have hoff : scanOn STARTING_PORT PORT_RANGE_LIMIT false
      (STARTING_PORT + (PORT_RANGE_LIMIT + 1)) = false := by
    simp [scanOn]
  rw [List.replicate_succ', runSteps_append, Rti.init, if_pos rfl,
    connect_refused _ _ _ _ _ _ 0 [] le_rfl (by omega)]
  simp [runSteps, connectStep, hoff, List.range'_concat, Nat.add_assoc]

/-! ### The scan of `connect_to_rti` where no wrong RTI answers -/

def triedPorts (log : List Event) : List ℕ :=
  log.filterMap fun | .connect p => some p | .sleep => none

@[simp] lemma triedPorts_nil : triedPorts [] = [] := rfl

@[simp] lemma triedPorts_connect (log : List Event) (p : ℕ) :
    triedPorts (.connect p :: log) = p :: triedPorts log := rfl

@[simp] lemma triedPorts_sleep (log : List Event) : triedPorts (.sleep :: log) = triedPorts log :=
  rfl

@[simp] lemma triedPorts_append (l l' : List Event) :
    triedPorts (l ++ l') = triedPorts l ++ triedPorts l' :=
  List.filterMap_append _ _ _

/-- The environments where no RTI of another federation answers: no `REJECT` names a cause that
moves the scan on. -/
def noWrongRti (_ : Rti) : Attempt → Bool
  | .answered response cause => !(response == c.REJECT &&
      (cause == causes.FEDERATION_ID_DOES_NOT_MATCH || cause == causes.WRONG_SERVER))
  | _ => true

/-- What `connect_to_rti` with no port given keeps while no RTI of another federation answers:
every port tried lies in `[STARTING_PORT, STARTING_PORT + PORT_RANGE_LIMIT + 1]`; at the head of
the loop each counted retry stands for a whole pass of `PORT_RANGE_LIMIT + 2` attempts, and the
current pass has tried the ports below `port`. -/
def Scan (s : Rti) : Prop :=
  (∀ p ∈ triedPorts s.log, STARTING_PORT ≤ p ∧ p ≤ STARTING_PORT + PORT_RANGE_LIMIT + 1) ∧
  (s.pc = .connecting →
    STARTING_PORT ≤ s.port ∧ s.port ≤ STARTING_PORT + PORT_RANGE_LIMIT + 1 ∧
    s.countRetries ≤ CONNECT_NUM_RETRIES ∧
    (triedPorts s.log).length =
      s.countRetries * (PORT_RANGE_LIMIT + 2) + (s.port - STARTING_PORT)) ∧
  (triedPorts s.log).length ≤ (CONNECT_NUM_RETRIES + 1) * (PORT_RANGE_LIMIT + 2)

lemma Scan.step {s s' : Rti} {a : Attempt}
    (hs : Scan STARTING_PORT PORT_RANGE_LIMIT CONNECT_NUM_RETRIES s)
    (ha : noWrongRti c causes s a = true)
    (h : connectStep STARTING_PORT PORT_RANGE_LIMIT CONNECT_NUM_RETRIES c causes false s a =
      some s') :
    Scan STARTING_PORT PORT_RANGE_LIMIT CONNECT_NUM_RETRIES s' := by
  simp only [connectStep, Option.ite_none_right_eq_some, Option.some.injEq] at h
  obtain ⟨hpc, rfl⟩ := h
  obtain ⟨htried, hrun, hlen⟩ := hs
  obtain ⟨h0, h1, hr, hk⟩ := hrun hpc
  -- every pass but a failure tries the current port, which lies in the range, within the bound
  have hnew : triedPorts (s.log ++ [.connect s.port]) = triedPorts s.log ++ [s.port] := by simp
  have hnext : ∀ p ∈ triedPorts s.log ++ [s.port],
      STARTING_PORT ≤ p ∧ p ≤ STARTING_PORT + PORT_RANGE_LIMIT + 1 :=
    List.forall_mem_append.mpr ⟨htried, List.forall_mem_singleton.mpr ⟨h0, h1⟩⟩
  have hbound : (triedPorts s.log ++ [s.port]).length ≤
      (CONNECT_NUM_RETRIES + 1) * (PORT_RANGE_LIMIT + 2) := by
    have := Nat.mul_le_mul_right (PORT_RANGE_LIMIT + 2) hr
    rw [List.length_append, List.length_singleton, hk, Nat.succ_mul]
    omega
  cases a with
  | failure => exact ⟨htried, nofun, hlen⟩
  | refused =>
    dsimp only
    split_ifs with hon
    · -- the scan moves on within the range
      obtain ⟨-, -, hhi⟩ := (scanOn_iff _ _).mp hon
      refine ⟨hnew ▸ hnext, fun _ => ?_, hnew ▸ hbound⟩
      dsimp only
      rw [hnew, List.length_append, List.length_singleton, hk]
      omega
    · -- a pass ends past the range: it wraps back, counts a retry and gives up or sleeps
      have hend : s.port = STARTING_PORT + PORT_RANGE_LIMIT + 1 := by
        by_contra hne
        exact hon ((scanOn_iff _ _).mpr ⟨rfl, h0, by omega⟩)
      have hwrap : (!false && s.port == STARTING_PORT + PORT_RANGE_LIMIT + 1) = true := by
        simp [hend]
      simp only [retry, hwrap, ↓reduceIte]
      split_ifs with hgive
      · exact ⟨hnew ▸ hnext, nofun, hnew ▸ hbound⟩
      · have hsleep : triedPorts (s.log ++ [.connect s.port] ++ [.sleep]) =
            triedPorts s.log ++ [s.port] := by simp
        refine ⟨hsleep ▸ hnext, fun _ => ?_, hsleep ▸ hbound⟩
        dsimp only
        rw [hsleep, List.length_append, List.length_singleton, hk, Nat.succ_mul]
        omega
  | answered response cause =>
    simp only [noWrongRti, Bool.not_eq_true', Bool.and_eq_false_iff, beq_eq_false_iff_ne,
      Bool.or_eq_false_iff, ne_eq] at ha
    dsimp only
    split_ifs with hrej hcause
    · rcases hcause with hc | hc <;> rcases ha with ha | ⟨ha, hb⟩ <;> contradiction
    all_goals exact ⟨hnew ▸ hnext, nofun, hnew ▸ hbound⟩

/-- **The scan of `connect_to_rti` as the code has it.** With no port given and no RTI of another
federation answering, every port `connect_to_rti` tries lies in `[STARTING_PORT, STARTING_PORT +
PORT_RANGE_LIMIT + 1]`, one port past the range, and it makes at most
`(CONNECT_NUM_RETRIES + 1) * (PORT_RANGE_LIMIT + 2)` attempts before it connects or exits. -/
theorem connect_to_rti_scan {as : List Attempt} {s : Rti}
    (h : runSteps (connectStep STARTING_PORT PORT_RANGE_LIMIT CONNECT_NUM_RETRIES c causes false)
      (noWrongRti c causes) (Rti.init STARTING_PORT 0) as = some s) :
    (∀ p ∈ triedPorts s.log, STARTING_PORT ≤ p ∧ p ≤ STARTING_PORT + PORT_RANGE_LIMIT + 1) ∧
      (triedPorts s.log).length ≤ (CONNECT_NUM_RETRIES + 1) * (PORT_RANGE_LIMIT + 2) := by
  have hinit : Scan STARTING_PORT PORT_RANGE_LIMIT CONNECT_NUM_RETRIES
      ⟨.connecting, STARTING_PORT, 0, []⟩ :=
    ⟨nofun, fun _ => ⟨le_rfl, Nat.le_add_right STARTING_PORT (PORT_RANGE_LIMIT + 1),
      Nat.zero_le _, by simp⟩, Nat.zero_le _⟩
  obtain ⟨ht, -, hl⟩ :=
    runSteps_invariant _ _ (fun _ _ _ hs ha h => Scan.step _ _ _ c causes hs ha h) hinit h
  exact ⟨ht, hl⟩

theorem connect_to_rti_scan_second_pass :
    ∃ s, runSteps (connectStep 100 1 1 someCodes ⟨3, 4⟩ false) (noWrongRti someCodes ⟨3, 4⟩)
        (Rti.init 100 0) [.refused, .refused, .refused, .answered someCodes.ACK 0] = some s ∧
      (∀ p ∈ triedPorts s.log, 100 ≤ p ∧ p ≤ 100 + 1 + 1) ∧
      (triedPorts s.log).length ≤ (1 + 1) * (1 + 2) :=
  ⟨_, rfl, @connect_to_rti_scan 100 1 1 someCodes ⟨3, 4⟩
    [.refused, .refused, .refused, .answered someCodes.ACK 0] _ rfl⟩

/-- **The scans overrun their range.** With no port specified, `create_server` whose binds all
fail tries every port from `STARTING_PORT` to `STARTING_PORT + PORT_RANGE_LIMIT + 1` before it
exits, and the first pass of `connect_to_rti` whose connections are all refused makes
`PORT_RANGE_LIMIT + 2` attempts, the last on `STARTING_PORT + PORT_RANGE_LIMIT + 1`, before it
counts a retry, wraps back and sleeps (or gives up). With a port `p` specified, an RTI that
rejects the handshake as `WRONG_SERVER` makes `connect_to_rti` try `p + 1`. -/
theorem port_scan_overruns_range :
    (∃ s, ServerReachable STARTING_PORT PORT_RANGE_LIMIT 0 s ∧ s.pc = .exited ∧
      s.tried = List.range' STARTING_PORT (PORT_RANGE_LIMIT + 2)) ∧
    (∃ s, RtiReachable STARTING_PORT PORT_RANGE_LIMIT CONNECT_NUM_RETRIES c causes 0 s ∧
      s.port = STARTING_PORT ∧ s.countRetries = 1 ∧
      s.log = (List.range' STARTING_PORT (PORT_RANGE_LIMIT + 2)).map .connect ++
        (if CONNECT_NUM_RETRIES = 0 then [] else [.sleep])) ∧
    (∀ p, p ≠ 0 → ∃ s,
      RtiReachable STARTING_PORT PORT_RANGE_LIMIT CONNECT_NUM_RETRIES c causes p s ∧
      s.log = [.connect p, .connect (p + 1)]) := by
  refine ⟨⟨_, ⟨_, bind_all_fail _ _⟩, rfl, rfl⟩,
    ⟨_, ⟨_, connect_first_pass _ _ _ c causes⟩, ?_⟩,
    fun p hp => ⟨⟨.connected, p + 1, 0, _⟩,
      ⟨[.answered c.REJECT causes.WRONG_SERVER, .answered c.ACK 0], ?_⟩, rfl⟩⟩
  · by_cases h : CONNECT_NUM_RETRIES = 0 <;> simp [retry, h, Nat.pos_of_ne_zero]
  · simp [runSteps, connectStep, Rti.init, hp, scanOn, c.ack_ne_reject]

end LfFederate.PortScan
