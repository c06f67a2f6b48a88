import Mathlib.Data.Int.CharZero
import HapAndroid.Lib.RuleChain
import HapAndroid.Platform.Files

/-!
# `pstart.sh` and `pstop.sh`

The script behind the first button sends the traffic of the device through the
local port; the script behind the second one takes that back.  `pstart` is the
list of commands of the first script, section by section in its own order.  The
rules are mostly inserted on top, so the chain that decides reads backwards:
the sections below the redirects exempt a packet from them.

`fate_pstart` says what becomes of a packet of the device.  The last part is
about starting twice and stopping: the script begins by flushing the table `nat`,
and the other script does nothing else, so they agree on every rule but the one
that exempts the interface of the wireless network in the table `mangle`.
-/

namespace HapAndroid.AntiLeak

/-! ## Packets, rules and chains -/

structure Address where
  a : UInt8
  b : UInt8
  c : UInt8
  d : UInt8
deriving DecidableEq

def localhost : Address := ⟨127, 0, 0, 1⟩

inductive Protocol where
  | tcp | udp | sctp | icmp
  | other (number : UInt8)
deriving DecidableEq

structure Packet where
  protocol : Protocol
  source : Address
  destination : Address
  dport : Nat
  /-- The interface it leaves by. -/
  out : Text
  /-- The user it belongs to, when it is generated on the device. -/
  owner : Option Nat

/-- A TCP packet generated on the device. -/
def Packet.localTcp (source destination : Address) (dport uid : Nat) (out : Text) : Packet :=
  ⟨.tcp, source, destination, dport, out, some uid⟩

/-- One condition of a rule. -/
inductive Match where
  | protocol (p : Protocol)
  | dport (port : Nat)
  | destination (d : Address)
  /-- A source whose address begins with two given bytes. -/
  | source16 (a b : UInt8)
  | outInterface (o : Text)
  | uidOwner (u : Int)
  /-- What else a rule that was there before may ask for. -/
  | extension (test : Packet → Bool)

def Match.holds (x : Packet) : Match → Bool
  | .protocol p => x.protocol = p
  | .dport port => x.dport = port
  | .destination d => x.destination = d
  | .source16 a b => x.source.a = a && x.source.b = b
  | .outInterface o => x.out = o
  | .uidOwner u => x.owner.map (fun n => (n : Int)) = some u
  | .extension test => test x

inductive Target where
  | accept
  | drop
  | redirect (port : Nat)
  | dnat (dest : Address) (port : Nat)
  | masquerade
  /-- The target of a rule that was there before. -/
  | extension (name : Text)
deriving DecidableEq

structure Rule where
  conditions : List Match
  target : Target

def Rule.applies (r : Rule) (x : Packet) : Bool := r.conditions.all (Match.holds x)

inductive Table where
  | filter | nat | mangle | raw
deriving DecidableEq

inductive Hook where
  | prerouting | input | forward | output | postrouting
  | user (name : Text)
deriving DecidableEq

structure Chain where
  table : Table
  hook : Hook
deriving DecidableEq

def natOutput : Chain := ⟨.nat, .output⟩
def natPrerouting : Chain := ⟨.nat, .prerouting⟩
def natPostrouting : Chain := ⟨.nat, .postrouting⟩
def mangleOutput : Chain := ⟨.mangle, .output⟩

/-- What the scripts change. -/
structure Net where
  tables : Chain → List Rule
  ipForward : Bool

/-- Flush a table. -/
def flushTable (t : Table) : RuleChain.Edit Chain Rule := .flush fun k => k.table = t

/-- What becomes of a packet in a chain of the table `nat`. -/
inductive Fate where
  | accepted
  | dropped
  | rerouted (dest : Address) (port : Nat)
  | untouched
  | elsewhere
deriving DecidableEq

def fateOf : Option Target → Fate
  | none => .untouched
  | some .accept => .accepted
  | some .drop => .dropped
  | some (.redirect port) => .rerouted localhost port
  | some (.dnat dest port) => .rerouted dest port
  | some .masquerade => .elsewhere
  | some (.extension _) => .elsewhere

/-- What becomes of a packet of the device on its way out. -/
def Net.fate (n : Net) (x : Packet) : Fate :=
  fateOf (RuleChain.verdict Rule.applies Rule.target (n.tables natOutput) x)

/-! ## The scripts -/

/-- The variables at the head of `pstart.sh`.  The user ids of the two chat
programs are -1 when they are not installed. -/
structure Settings where
  l_port : Nat
  u_qq : Int
  u_qql : Int
  qft : Bool
  wifi : Bool
  gxft : Bool
  wk : Text
  qfx : List Nat
  bfx : List Nat
  bfx_port : List Nat

namespace Settings

variable (s : Settings)

/-- The ports that are redirected one by one. -/
def webPorts : List Nat := [80, 8080, 443]

def redirectWeb : List (RuleChain.Edit Chain Rule) :=
  webPorts.map fun p => .insert natOutput ⟨[.protocol .tcp, .dport p], .redirect s.l_port⟩

def acceptLocal : List (RuleChain.Edit Chain Rule) :=
  [.insert natOutput ⟨[.protocol .tcp, .destination localhost], .accept⟩]

def redirectAll : List (RuleChain.Edit Chain Rule) :=
  if s.qft then [.append natOutput ⟨[.protocol .tcp], .dnat localhost s.l_port⟩] else []

def acceptUsers : List (RuleChain.Edit Chain Rule) :=
  s.qfx.map fun u => .insert natOutput ⟨[.protocol .tcp, .uidOwner u], .accept⟩

def acceptUserPorts : List (RuleChain.Edit Chain Rule) :=
  if s.bfx ≠ [] then
    s.bfx.flatMap fun u => s.bfx_port.map fun p =>
      .insert natOutput ⟨[.protocol .tcp, .dport p, .uidOwner u], .accept⟩
  else []

/-- The section of one of the two chat programs. -/
def acceptChat (u : Int) : List (RuleChain.Edit Chain Rule) :=
  if u ≠ -1 then
    [(.tcp, 14000), (.tcp, 8080), (.tcp, 443), (.udp, 8000), (.udp, 10061)].map
      fun (proto, p) => .insert natOutput ⟨[.protocol proto, .dport p, .uidOwner u], .accept⟩
  else []

def shareRules : List (RuleChain.Edit Chain Rule) :=
  if s.gxft then
    [.append natPrerouting ⟨[.source16 192 168, .protocol .sctp], .redirect s.l_port⟩,
      .append natPrerouting ⟨[.source16 192 168, .protocol .icmp], .redirect s.l_port⟩,
      .append natPrerouting ⟨[.source16 192 168, .protocol .udp], .redirect s.l_port⟩,
      .append natPrerouting ⟨[.source16 192 168, .protocol .tcp, .dport 80], .redirect s.l_port⟩,
      .append natPostrouting ⟨[.source16 192 168], .masquerade⟩]
  else []

/-- The rule that exempts the wireless network. -/
def wifiRule : Rule := ⟨[.outInterface s.wk], .accept⟩

def acceptWifi : List (RuleChain.Edit Chain Rule) :=
  if s.wifi then [.insert mangleOutput s.wifiRule, .insert natOutput s.wifiRule] else []

/-- The commands of `pstart.sh` after the flush. -/
def rules : List (RuleChain.Edit Chain Rule) :=
  s.redirectWeb ++ acceptLocal ++ s.redirectAll ++ s.acceptUsers ++ s.acceptUserPorts ++
    acceptChat s.u_qq ++ acceptChat s.u_qql ++ s.shareRules ++ s.acceptWifi

end Settings

def pstart (s : Settings) (n : Net) : Net where
  tables := RuleChain.applyAll (flushTable .nat :: s.rules) n.tables
  ipForward := s.gxft || n.ipForward

def pstop (n : Net) : Net :=
  { n with tables := RuleChain.applyAll [flushTable .nat] n.tables }

/-! ## What becomes of a packet -/

namespace Settings

variable {s : Settings} {source destination : Address} {dport uid : Nat} {out : Text}

/-- The packets of the device that are let out as they are. -/
def Exempt (s : Settings) (destination : Address) (dport uid : Nat) (out : Text) : Prop :=
  (s.wifi = true ∧ out = s.wk) ∨
    (((s.u_qq ≠ -1 ∧ (uid : Int) = s.u_qq) ∨ (s.u_qql ≠ -1 ∧ (uid : Int) = s.u_qql)) ∧
      (dport = 14000 ∨ dport = 8080 ∨ dport = 443)) ∨
    (uid ∈ s.bfx ∧ dport ∈ s.bfx_port) ∨ uid ∈ s.qfx ∨ destination = localhost

instance : Decidable (s.Exempt destination dport uid out) := by
  unfold Exempt
  infer_instance

/-- The commands that exempt packets from the redirects. -/
def exemptions (s : Settings) : List (RuleChain.Edit Chain Rule) :=
  acceptLocal ++ s.acceptUsers ++ s.acceptUserPorts ++ acceptChat s.u_qq ++ acceptChat s.u_qql ++
    s.acceptWifi

/-- The commands before the exemption of the wireless network. -/
def natRules (s : Settings) : List (RuleChain.Edit Chain Rule) :=
  s.redirectWeb ++ acceptLocal ++ s.redirectAll ++ s.acceptUsers ++ s.acceptUserPorts ++
    acceptChat s.u_qq ++ acceptChat s.u_qql ++ s.shareRules

theorem adds_acceptChat (u : Int) : ∀ e ∈ acceptChat u, e.Adds fun k => k.table = .nat := by
  unfold acceptChat
  split <;> simp [RuleChain.Edit.Adds, natOutput]

/-- They add rules to the table `nat`. -/
theorem adds_natRules (s : Settings) : ∀ e ∈ s.natRules, e.Adds fun k => k.table = .nat := by
  simp only [natRules, List.forall_mem_append]
  refine ⟨⟨⟨⟨⟨⟨⟨?_, ?_⟩, ?_⟩, ?_⟩, ?_⟩, adds_acceptChat _⟩, adds_acceptChat _⟩, ?_⟩
  · simp [redirectWeb, RuleChain.Edit.Adds, natOutput]
  · simp [acceptLocal, RuleChain.Edit.Adds, natOutput]
  · unfold redirectAll
    split <;> simp [RuleChain.Edit.Adds, natOutput]
  · simp [acceptUsers, RuleChain.Edit.Adds, natOutput]
  · unfold acceptUserPorts
    split
    · simp only [List.mem_flatMap, List.mem_map]
      rintro e ⟨u, -, p, -, rfl⟩
      rfl
    · simp
  · unfold shareRules
    split <;> simp [RuleChain.Edit.Adds, natPrerouting, natPostrouting]

theorem adds_acceptWifi (s : Settings) : ∀ e ∈ s.acceptWifi, e.Adds fun k => k.hook = .output := by
  unfold acceptWifi
  split <;> simp [RuleChain.Edit.Adds, mangleOutput, natOutput]

/-- A chain of the table `nat` after the script. -/
theorem tables_pstart_nat (s : Settings) (n : Net) {k : Chain} (hk : k.table = .nat) :
    (pstart s n).tables k =
      (RuleChain.inserted k s.rules).reverse ++ RuleChain.appended k s.rules := by
  have hrules : s.rules = s.natRules ++ s.acceptWifi := rfl
  simp only [pstart, hrules, RuleChain.applyAll_cons, RuleChain.applyAll_append,
    RuleChain.applyAll_eq s.adds_natRules, RuleChain.applyAll_eq s.adds_acceptWifi]
  simp [flushTable, RuleChain.Edit.apply, RuleChain.inserted_append, hk]

/-- What the script inserts into the chain of outgoing packets. -/
theorem inserted_natOutput (s : Settings) :
    RuleChain.inserted natOutput s.rules =
      RuleChain.inserted natOutput s.redirectWeb ++ RuleChain.inserted natOutput s.exemptions := by
  have hall : RuleChain.inserted natOutput s.redirectAll = [] := by
    unfold redirectAll
    split <;> rfl
  have hshare : RuleChain.inserted natOutput s.shareRules = [] := by
    unfold shareRules
    split <;> rfl
  simp [rules, exemptions, RuleChain.inserted_append, hall, hshare]

theorem accept_acceptChat (u : Int) :
    ∀ e ∈ acceptChat u, ∃ k c, e = .insert k ⟨c, .accept⟩ := by
  unfold acceptChat
  split <;> simp

/-- An exemption accepts. -/
theorem accept_exemptions (s : Settings) :
    ∀ e ∈ s.exemptions, ∃ k c, e = .insert k ⟨c, .accept⟩ := by
  simp only [exemptions, List.forall_mem_append]
  refine ⟨⟨⟨⟨⟨?_, ?_⟩, ?_⟩, accept_acceptChat _⟩, accept_acceptChat _⟩, ?_⟩
  · simp [acceptLocal]
  · simp [acceptUsers]
  · unfold acceptUserPorts
    split
    · simp only [List.mem_flatMap, List.mem_map]
      rintro e ⟨u, -, p, -, rfl⟩
      exact ⟨_, _, rfl⟩
    · simp
  · unfold acceptWifi
    split <;> simp [wifiRule]

/-- Some rule that these commands insert for outgoing packets applies. -/
def Catches (es : List (RuleChain.Edit Chain Rule)) (x : Packet) : Prop :=
  ∃ r, .insert natOutput r ∈ es ∧ r.applies x = true

theorem catches_append {es fs : List (RuleChain.Edit Chain Rule)} {x : Packet} :
    Catches (es ++ fs) x ↔ Catches es x ∨ Catches fs x := by
  simp [Catches, or_and_right, exists_or]

section catches

theorem catches_acceptLocal :
    Catches acceptLocal (.localTcp source destination dport uid out) ↔ destination = localhost := by
  simp [Catches, acceptLocal, Rule.applies, Match.holds, Packet.localTcp]

theorem catches_acceptUsers :
    Catches s.acceptUsers (.localTcp source destination dport uid out) ↔ uid ∈ s.qfx := by
  simp [Catches, acceptUsers, Rule.applies, Match.holds, Packet.localTcp]

theorem catches_acceptUserPorts :
    Catches s.acceptUserPorts (.localTcp source destination dport uid out) ↔
      uid ∈ s.bfx ∧ dport ∈ s.bfx_port := by
  unfold acceptUserPorts
  split
  · simp [Catches, Rule.applies, Match.holds, Packet.localTcp]
  · simp_all [Catches]

theorem catches_acceptChat {u : Int} :
    Catches (acceptChat u) (.localTcp source destination dport uid out) ↔
      (u ≠ -1 ∧ (uid : Int) = u) ∧ (dport = 14000 ∨ dport = 8080 ∨ dport = 443) := by
  unfold acceptChat
  split
  · next hu =>
    simp [Catches, Rule.applies, Match.holds, Packet.localTcp, hu, and_comm, ← and_or_left]
  · simp_all [Catches]

theorem catches_acceptWifi :
    Catches s.acceptWifi (.localTcp source destination dport uid out) ↔
      s.wifi = true ∧ out = s.wk := by
  unfold acceptWifi
  split
  · next hw => simp [Catches, wifiRule, Rule.applies, Match.holds, Packet.localTcp, hw]
  · simp_all [Catches]

end catches

theorem catches_exemptions :
    Catches s.exemptions (.localTcp source destination dport uid out) ↔
      s.Exempt destination dport uid out := by
  simp only [exemptions, catches_append, catches_acceptLocal, catches_acceptUsers,
    catches_acceptUserPorts, catches_acceptChat, catches_acceptWifi, Exempt, or_and_right]
  apply iff_of_eq
  ac_rfl

/-- The exemptions, read from the top of the chain. -/
theorem verdict_exemptions :
    RuleChain.verdict Rule.applies Rule.target
        (RuleChain.inserted natOutput s.exemptions).reverse
        (.localTcp source destination dport uid out) =
      if s.Exempt destination dport uid out then some .accept else none := by
  rw [RuleChain.verdict_uniform (t := .accept)]
  · refine if_congr ?_ rfl rfl
    simp only [List.mem_reverse, RuleChain.mem_inserted]
    exact catches_exemptions
  · intro r hr
    rw [List.mem_reverse, RuleChain.mem_inserted] at hr
    obtain ⟨k, c, he⟩ := s.accept_exemptions _ hr
    cases he
    rfl

/-- The redirects of single ports. -/
theorem verdict_redirectWeb :
    RuleChain.verdict Rule.applies Rule.target
        (RuleChain.inserted natOutput s.redirectWeb).reverse
        (.localTcp source destination dport uid out) =
      if dport ∈ webPorts then some (.redirect s.l_port) else none := by
  rw [RuleChain.verdict_uniform (t := .redirect s.l_port)]
  · simp [RuleChain.mem_inserted, redirectWeb, Rule.applies, Match.holds, Packet.localTcp]
  · intro r hr
    rw [List.mem_reverse, RuleChain.mem_inserted] at hr
    simp only [redirectWeb, List.mem_map] at hr
    obtain ⟨p, -, he⟩ := hr
    cases he
    rfl

/-- Only the redirect of everything else is appended to the chain of outgoing
packets. -/
theorem appended_natOutput (s : Settings) :
    RuleChain.appended natOutput s.rules = RuleChain.appended natOutput s.redirectAll := by
  have hweb : RuleChain.appended natOutput s.redirectWeb = [] := rfl
  have hshare : RuleChain.appended natOutput s.shareRules = [] := by
    unfold shareRules
    split <;> rfl
  have hex : RuleChain.appended natOutput s.exemptions = [] := by
    refine RuleChain.appended_of_inserts (fun e he => ?_) natOutput
    obtain ⟨k, c, rfl⟩ := s.accept_exemptions e he
    exact ⟨k, _, rfl⟩
  simp only [exemptions, RuleChain.appended_append, List.append_eq_nil_iff] at hex
  obtain ⟨⟨⟨⟨⟨hlocal, husers⟩, hports⟩, hqq⟩, hqql⟩, hwifi⟩ := hex
  simp [rules, hweb, hlocal, husers, hports, hqq, hqql, hshare, hwifi]

theorem verdict_redirectAll :
    RuleChain.verdict Rule.applies Rule.target (RuleChain.appended natOutput s.rules)
        (.localTcp source destination dport uid out) =
      if s.qft then some (.dnat localhost s.l_port) else none := by
  rw [appended_natOutput, redirectAll]
  split <;> rfl

end Settings

/-- What becomes of a TCP packet of the device after the script. -/
theorem fate_pstart (s : Settings) (n : Net) (source destination : Address) (dport uid : Nat)
    (out : Text) :
    (pstart s n).fate (.localTcp source destination dport uid out) =
      if s.Exempt destination dport uid out then .accepted
      else if dport ∈ Settings.webPorts ∨ s.qft = true then .rerouted localhost s.l_port
      else .untouched := by
  rw [Net.fate, Settings.tables_pstart_nat s n rfl, Settings.inserted_natOutput,
    List.reverse_append, RuleChain.verdict_append, RuleChain.verdict_append,
    Settings.verdict_exemptions, Settings.verdict_redirectWeb, Settings.verdict_redirectAll]
  split_ifs <;> simp_all [fateOf]

/-- A TCP packet of the device is accepted as it is exactly when it is exempt; one
that is not goes to the local port when its port is one of the three or everything
is redirected, and is left alone otherwise. -/
theorem pstart_classifies (s : Settings) (n : Net) (source destination : Address)
    (dport uid : Nat) (out : Text) :
    let fate := (pstart s n).fate (.localTcp source destination dport uid out)
    let exempt := s.Exempt destination dport uid out
    let web := dport = 80 ∨ dport = 8080 ∨ dport = 443
    (fate = .accepted ↔ exempt) ∧
      (fate = .rerouted localhost s.l_port ↔ ¬ exempt ∧ (web ∨ s.qft = true)) ∧
      (fate = .untouched ↔ ¬ exempt ∧ ¬ web ∧ s.qft = false) := by
  intro fate exempt web
  have hweb : dport ∈ Settings.webPorts ↔ web := by simp [Settings.webPorts, web]
  have hfate : fate = if exempt then .accepted
      else if web ∨ s.qft = true then .rerouted localhost s.l_port else .untouched := by
    simp only [fate, exempt, fate_pstart, hweb]
  rw [hfate]
  by_cases hx : exempt
  · simp [hx]
  · by_cases hr : web ∨ s.qft = true
    · have hleft : ¬ (¬ web ∧ s.qft = false) := by
        rintro ⟨hw, hq⟩
        exact hr.elim hw (by simp [hq])
      simp only [hx, hr, hleft, if_true, if_false]
      simp
    · have hleft : ¬ web ∧ s.qft = false := by
        rw [not_or, Bool.not_eq_true] at hr
        exact hr
      simp only [hx, hleft, if_false]
      simp

/-! ## Starting twice and stopping -/

/-- Run `pstart.sh` once for each of the settings. -/
def startAll (ss : List Settings) (n : Net) : Net := ss.foldl (fun n s => pstart s n) n

theorem tables_pstart_other (s : Settings) (n : Net) {k : Chain} (hk : k.table ≠ .nat) :
    (pstart s n).tables k =
      if s.wifi = true ∧ k = mangleOutput then s.wifiRule :: n.tables k else n.tables k := by
  have hrules : flushTable .nat :: s.rules = [flushTable .nat] ++ s.natRules ++ s.acceptWifi := rfl
  have hflush : RuleChain.applyAll [flushTable .nat] n.tables k = n.tables k := by
    simp [RuleChain.applyAll, RuleChain.Edit.apply, flushTable, hk]
  have hnat := RuleChain.applyAll_of_adds (S := fun k => k.table = .nat) hk s.natRules
    (RuleChain.applyAll [flushTable .nat] n.tables) s.adds_natRules
  have hk' : k ≠ natOutput := fun h => hk (h ▸ rfl)
  simp only [pstart, hrules, RuleChain.applyAll_append, Settings.acceptWifi]
  split_ifs <;> simp_all [RuleChain.applyAll, RuleChain.Edit.apply]

/-- Starting twice is starting once exactly when the wireless network is not
exempt. -/
theorem pstart_idempotent_iff (s : Settings) (n : Net) :
    (pstart s (pstart s n)).tables = (pstart s n).tables ↔ s.wifi = false := by
  constructor
  · intro h
    by_contra hw
    have hm := congrFun h mangleOutput
    rw [tables_pstart_other s _ (by decide)] at hm
    simp [hw] at hm
  · intro hw
    funext k
    by_cases hk : k.table = .nat
    · rw [Settings.tables_pstart_nat s _ hk, Settings.tables_pstart_nat s _ hk]
    · rw [tables_pstart_other s _ hk]
      simp [hw]

/-- The rules of the other tables after any number of starts. -/
theorem tables_startAll_other (ss : List Settings) (n : Net) {k : Chain} (hk : k.table ≠ .nat) :
    (startAll ss n).tables k =
      if k = mangleOutput then
        ((ss.filter (·.wifi)).map Settings.wifiRule).reverse ++ n.tables k
      else n.tables k := by
  induction ss generalizing n with
  | nil => simp [startAll]
  | cons s ss ih =>
      rw [startAll, List.foldl_cons, ← startAll, ih, tables_pstart_other s n hk]
      cases hw : s.wifi <;> split <;> simp_all

theorem tables_pstop (n : Net) (k : Chain) :
    (pstop n).tables k = if k.table = .nat then [] else n.tables k := by
  simp [pstop, RuleChain.applyAll, RuleChain.Edit.apply, flushTable]

/-- Stopping leaves no rule of the starts exactly when none of them exempts the
wireless network. -/
theorem pstop_undoes_iff (ss : List Settings) (n : Net) :
    (∀ k, ((pstop (startAll ss n)).tables k).Sublist (n.tables k)) ↔ ∀ s ∈ ss, s.wifi = false := by
  constructor
  · intro h
    have hlen := (h mangleOutput).length_le
    rw [tables_pstop, if_neg (by decide), tables_startAll_other ss n (by decide), if_pos rfl] at hlen
    have hnone : (ss.filter (·.wifi)).length = 0 := by
      simp only [List.length_append, List.length_reverse, List.length_map] at hlen
      omega
    simpa using hnone
  · intro hw k
    have hnone : ss.filter (·.wifi) = [] := by simpa using hw
    rw [tables_pstop]
    split
    · exact List.nil_sublist _
    · next hk =>
      rw [tables_startAll_other ss n hk, hnone]
      simp

/-- Starting again changes no rule and stopping leaves no rule of the starts,
exactly when the wireless network is not exempt in any of them. -/
theorem start_stop_iff (ss : List Settings) (n : Net) :
    ((∀ s ∈ ss, (pstart s (pstart s n)).tables = (pstart s n).tables) ∧
      ∀ k, ((pstop (startAll ss n)).tables k).Sublist (n.tables k)) ↔
    ∀ s ∈ ss, s.wifi = false := by
  simp only [pstart_idempotent_iff, pstop_undoes_iff, and_self]

/-- The variables as the script comes, for a device without the two chat
programs. -/
def Settings.shipped : Settings where
  l_port := 8787
  u_qq := -1
  u_qql := -1
  qft := true
  wifi := true
  gxft := true
  wk := "wlan0".toList
  qfx := [3004]
  bfx := []
  bfx_port := []

/-- With the script as it comes, a second start adds a rule and stopping leaves
two. -/
theorem shipped_not_undone :
    let n : Net := ⟨fun _ => [], false⟩
    (pstart .shipped (pstart .shipped n)).tables ≠ (pstart .shipped n).tables ∧
      ((pstop (pstart .shipped (pstart .shipped n))).tables mangleOutput).length = 2 := by
  intro n
  refine ⟨fun h => ?_, ?_⟩
  · have := (pstart_idempotent_iff .shipped n).mp h
    cases this
  · rfl

end HapAndroid.AntiLeak
