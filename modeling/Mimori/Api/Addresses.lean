/-
Addresses as text. The server reads its own address with `utils.ParseHostPort` and serves HTTP on the next port;
the clients make the HTTP address from the gRPC address by `getHTTPAddr`, each in its own way, and a dialable
address from a leader's id by `normalizeLeaderAddr`. The readers agree as long as the host has no colon; the two
normalisations agree except on the ids of the Docker nodes, whose published ports only `mimorictl` knows, and it
only the first three.
-/
import Mimori.Base.Decimal
import Mimori.Base.Strings
import Mimori.Raft.Types

namespace Mimori

variable {host port s baseAddr : Bytes} {p : Int} {n : Nat}

open Strings Decimal

/-! ## Hosts and ports -/

/-- `net.SplitHostPort` on `host:port` and `[host]:port`; `none` is an error. -/
def splitHostPort (hostport : Bytes) : Option (Bytes × Bytes) :=
  match lastIndex 58 hostport with
  | none => none
  | some i =>
    if hostport.head? = some 91 then
      match hostport.idxOf? 93 with
      | none => none
      | some e =>
        -- the last colon follows the first closing bracket
        if e + 1 ≠ i then none
        else if 91 ∈ hostport.drop 1 ∨ 93 ∈ hostport.drop (e + 1) then none
        else some ((hostport.take e).drop 1, hostport.drop (i + 1))
    else if 58 ∈ hostport.take i then none
    else if 91 ∈ hostport ∨ 93 ∈ hostport then none
    else some (hostport.take i, hostport.drop (i + 1))

/-- `utils.ParseHostPort`. -/
def parseHostPort (addr : Bytes) : Bytes × Int :=
  match splitHostPort addr with
  | some (host, port) => if (atoi port).2 then (host, (atoi port).1) else (host, 0)
  | none =>
    -- fallback for ":4000"
    if addr.head? = some 58 then
      if (atoi addr.tail).2 then ([], (atoi addr.tail).1) else ([], 0)
    else ([], 0)

/-- `fmt.Sprintf("%s:%d", host, port)`. -/
def joinPort (host : Bytes) (port : Int) : Bytes := host ++ 58 :: itoa port

namespace Library

def getHTTPAddr (grpcAddr : Bytes) : Bytes :=
  match grpcAddr.splitOn 58 with
  | [host, port] => if (atoi port).2 then joinPort host (int64 ((atoi port).1 + 1)) else grpcAddr
  | _ => grpcAddr

end Library

namespace Mimorictl

def getHTTPAddr (grpcAddr : Bytes) : Bytes :=
  match cut 58 grpcAddr with
  | (host, port, true) => if (atoi port).2 then joinPort host (int64 ((atoi port).1 + 1)) else grpcAddr
  | (_, _, false) => grpcAddr

end Mimorictl

def leaderHTTPBase (leaderID : Bytes) : Bytes :=
  let (host, port) := parseHostPort leaderID
  let host := if host = [] then utf8 "localhost" else host
  if port = 0 then [] else utf8 "http://" ++ joinPort host (int64 (port + 1))

/-- Neither bracket stands in the string. -/
def bracketFree (s : Bytes) : Prop := 91 ∉ s ∧ 93 ∉ s

theorem splitHostPort_plain (hhost : bracketFree host) (hport : bracketFree port) (hh : 58 ∉ host) (hp : 58 ∉ port) :
    splitHostPort (host ++ 58 :: port) = some (host, port) := by
  have hhead : (host ++ 58 :: port).head? ≠ some 91 := by
    cases host with
    | nil => exact fun h => absurd (Option.some.inj h) (by decide)
    | cons x t =>
      rintro h
      cases h
      exact hhost.1 List.mem_cons_self
  have hbr : ¬ (91 ∈ host ++ 58 :: port ∨ 93 ∈ host ++ 58 :: port) := by
    simp only [List.mem_append, List.mem_cons, not_or]
    exact ⟨⟨hhost.1, by decide, hport.1⟩, hhost.2, by decide, hport.2⟩
  simp only [splitHostPort, lastIndex_append host hp, if_neg hhead, List.take_left, if_neg hh, if_neg hbr]
  simp

theorem splitHostPort_bracketed (hhost : bracketFree host) (hport : bracketFree port) (hp : 58 ∉ port) :
    splitHostPort (91 :: host ++ 93 :: 58 :: port) = some (host, port) := by
  have hi : lastIndex 58 (91 :: host ++ 93 :: 58 :: port) = some (host.length + 2) := by
    have := lastIndex_append (91 :: host ++ [93]) hp
    simpa using this
  have he : (91 :: host ++ 93 :: 58 :: port).idxOf? 93 = some (host.length + 1) :=
    idxOf?_append _ fun h => (List.mem_cons.1 h).elim (by decide) hhost.2
  have hbr : ¬ (91 ∈ (91 :: host ++ 93 :: 58 :: port).drop 1 ∨
      93 ∈ (91 :: host ++ 93 :: 58 :: port).drop (host.length + 1 + 1)) := by
    simp [hhost.1, hport.1, hport.2]
  simp only [splitHostPort, hi, he, if_neg hbr]
  simp

/-- What `SplitHostPort` accepts: a host without colons, or any in brackets. -/
theorem splitHostPort_cases (h : splitHostPort s = some (host, port)) :
    bracketFree host ∧ bracketFree port ∧ 58 ∉ port ∧
      ((s = host ++ 58 :: port ∧ 58 ∉ host) ∨ s = 91 :: host ++ 93 :: 58 :: port) := by
  unfold splitHostPort at h
  rcases hi : lastIndex 58 s with _ | i <;> rw [hi] at h
  · cases h
  · obtain ⟨a, b, hs, hb, rfl⟩ := eq_append_of_lastIndex hi
    have hdrop : s.drop (a.length + 1) = b := by simp [hs]
    simp only [hdrop] at h
    split at h
    · rename_i hhead
      rcases he : s.idxOf? 93 with _ | e <;> rw [he] at h
      · cases h
      · obtain ⟨x, y, hs', hx, rfl⟩ := eq_append_of_idxOf? he
        simp only [Ne, ite_not] at h
        split at h
        · rename_i hlen
          split at h
          · cases h
          · rename_i hbr
            -- the bracket is the last character before the colon
            have hsplit : x ++ [93] ++ y = a ++ 58 :: b := by
              rw [List.append_assoc, ← hs, hs']
              rfl
            obtain ⟨-, rfl⟩ := List.append_inj hsplit (by simpa using hlen)
            subst hs'
            cases x with
            | nil => exact absurd (Option.some.inj hhead) (by decide)
            | cons c t =>
              cases hhead
              simp only [List.take_left, List.drop_succ_cons, List.drop_zero, Option.some.injEq, Prod.mk.injEq] at h
              obtain ⟨rfl, rfl⟩ := h
              have hdrop' : (91 :: t ++ 93 :: 58 :: b).drop ((91 :: t).length + 1) = 58 :: b := by simp
              rw [hdrop'] at hbr
              simp only [List.cons_append, List.drop_succ_cons, List.drop_zero, List.mem_append, List.mem_cons,
                not_or] at hbr hx
              exact ⟨⟨hbr.1.1, hx.2⟩, ⟨hbr.1.2.2.2, hbr.2.2⟩, hb, .inr rfl⟩
        · cases h
    · rename_i hhead
      split at h
      · cases h
      · rename_i hcolon
        split at h
        · cases h
        · rename_i hbr
          cases h
          subst hs
          rw [List.take_left] at hcolon ⊢
          simp only [List.mem_append, List.mem_cons, not_or] at hbr
          exact ⟨⟨hbr.1.1, hbr.2.1⟩, ⟨hbr.1.2.2, hbr.2.2.2⟩, hb, .inl ⟨rfl, hcolon⟩⟩

theorem numerals_plain (h : ∀ b ∈ s, isNumeral b = true) : bracketFree s ∧ 58 ∉ s :=
  ⟨⟨fun hm => absurd (h _ hm) (by decide), fun hm => absurd (h _ hm) (by decide)⟩, fun hm => absurd (h _ hm) (by decide)⟩

/-- A port above 0 was split off; the fallback never finds one. -/
theorem splitHostPort_of_parse {addr : Bytes} (h : parseHostPort addr = (host, p)) (hp : 0 < p) :
    ∃ port, splitHostPort addr = some (host, port) ∧ atoi port = (p, true) := by
  unfold parseHostPort at h
  rcases hs : splitHostPort addr with _ | ⟨host', port⟩ <;> rw [hs] at h
  · -- a number after the colon would have been split off
    exfalso
    simp only at h
    split at h
    · rename_i hhead
      split at h
      · rename_i hok
        cases addr with
        | nil => cases hhead
        | cons c port =>
          cases hhead
          obtain ⟨hfree, hcolon⟩ := numerals_plain (atoi_numerals (Prod.ext rfl hok))
          have hsplit : splitHostPort (58 :: port) = some ([], port) :=
            splitHostPort_plain ⟨List.not_mem_nil, List.not_mem_nil⟩ hfree List.not_mem_nil hcolon
          rw [hsplit] at hs
          cases hs
      · cases h
        exact Int.lt_irrefl 0 hp
    · cases h
      exact Int.lt_irrefl 0 hp
  · simp only at h
    split at h
    · rename_i hok
      cases h
      exact ⟨port, rfl, Prod.ext rfl hok⟩
    · cases h
      exact absurd hp (Int.lt_irrefl 0)

theorem parseHostPort_of_split {addr : Bytes} (hs : splitHostPort addr = some (host, port))
    (hp : atoi port = (p, true)) : parseHostPort addr = (host, p) := by
  simp only [parseHostPort, hs, hp, if_true]

/-- Both clients put the next port behind everything before the colon, if there is one colon. -/
theorem getHTTPAddr_of_one_colon (hh : 58 ∉ host) (hp : atoi port = (p, true)) :
    Library.getHTTPAddr (host ++ 58 :: port) = joinPort host (int64 (p + 1)) ∧
      Mimorictl.getHTTPAddr (host ++ 58 :: port) = joinPort host (int64 (p + 1)) := by
  have hport := (numerals_plain (atoi_numerals hp)).2
  constructor
  · simp only [Library.getHTTPAddr, splitOn_append hh hport, hp, if_true]
  · simp only [Mimorictl.getHTTPAddr, cut_append port hh, hp, if_true]

theorem getHTTPAddr_of_more_colons (hh : 58 ∈ host) :
    Library.getHTTPAddr (host ++ 58 :: port) = host ++ 58 :: port ∧
      Mimorictl.getHTTPAddr (host ++ 58 :: port) = host ++ 58 :: port := by
  constructor
  · have hlen : 2 < ((host ++ 58 :: port).splitOn 58).length := by
      have := List.count_pos_iff.2 hh
      rw [length_splitOn, List.count_append, List.count_cons_self]
      omega
    unfold Library.getHTTPAddr
    split
    · rename_i heq
      rw [heq] at hlen
      exact absurd hlen (Nat.lt_irrefl 2)
    · rfl
  · obtain ⟨a, b, rfl, ha⟩ := List.eq_append_cons_of_mem hh
    have hbad : (atoi (b ++ 58 :: port)).2 = false := by
      rw [← Bool.not_eq_true]
      intro hok
      exact (numerals_plain (atoi_numerals (Prod.ext rfl hok))).2 (by simp)
    rw [List.append_assoc, List.cons_append]
    simp only [Mimorictl.getHTTPAddr, cut_append (b ++ 58 :: port) ha, hbad, Bool.false_eq_true, if_false]

theorem splitHostPort_joinPort (hhost : bracketFree host) (hcolon : 58 ∉ host) (p : Int) :
    splitHostPort (joinPort host p) = some (host, itoa p) ∧
      splitHostPort (joinPort (91 :: host ++ [93]) p) = some (host, itoa p) := by
  obtain ⟨hfree, hport⟩ := numerals_plain (itoa_numerals p)
  refine ⟨splitHostPort_plain hhost hfree hcolon hport, ?_⟩
  have hassoc : joinPort (91 :: host ++ [93]) p = 91 :: host ++ 93 :: 58 :: itoa p := by simp [joinPort]
  rw [hassoc]
  exact splitHostPort_bracketed hhost hfree hport

/-- The two clients make the same HTTP address of every address that the server can serve HTTP beside, and if the
host has no colon the server's parser finds in it the same host and the next port, the one that redirects name. -/
theorem http_port_agreed {addr host : Bytes} {p : Int} (h : parseHostPort addr = (host, p)) (hp : 0 < p) :
    Library.getHTTPAddr addr = Mimorictl.getHTTPAddr addr ∧
      leaderHTTPBase addr =
        utf8 "http://" ++ joinPort (if host = [] then utf8 "localhost" else host) (int64 (p + 1)) ∧
      (58 ∉ host → parseHostPort (Library.getHTTPAddr addr) = (host, int64 (p + 1))) := by
  obtain ⟨port, hs, hport⟩ := splitHostPort_of_parse h hp
  have hbase : leaderHTTPBase addr =
      utf8 "http://" ++ joinPort (if host = [] then utf8 "localhost" else host) (int64 (p + 1)) := by
    simp only [leaderHTTPBase, h, if_neg (ne_of_gt hp)]
  have hback := atoi_itoa (fits_int64 (p + 1))
  obtain ⟨hhost, -, -, ⟨rfl, hcolon⟩ | rfl⟩ := splitHostPort_cases hs
  · obtain ⟨hlib, hctl⟩ := getHTTPAddr_of_one_colon hcolon hport
    refine ⟨hlib.trans hctl.symm, hbase, fun _ => ?_⟩
    rw [hlib]
    exact parseHostPort_of_split (splitHostPort_joinPort hhost hcolon _).1 hback
  · have hassoc : 91 :: host ++ 93 :: 58 :: port = (91 :: host ++ [93]) ++ 58 :: port := by simp
    rw [hassoc] at hbase ⊢
    by_cases hcolon : 58 ∈ host
    · have hmore : 58 ∈ 91 :: host ++ [93] := List.mem_append_left _ (List.mem_cons_of_mem _ hcolon)
      obtain ⟨hlib, hctl⟩ := getHTTPAddr_of_more_colons hmore
      exact ⟨hlib.trans hctl.symm, hbase, fun hno => absurd hcolon hno⟩
    · have hno : 58 ∉ 91 :: host ++ [93] := by simp [hcolon]
      obtain ⟨hlib, hctl⟩ := getHTTPAddr_of_one_colon hno hport
      refine ⟨hlib.trans hctl.symm, hbase, fun _ => ?_⟩
      rw [hlib]
      exact parseHostPort_of_split (splitHostPort_joinPort hhost hcolon _).2 hback

theorem http_port_agreed_localhost :
    parseHostPort (utf8 "localhost:4000") = (utf8 "localhost", 4000) ∧
      parseHostPort (Library.getHTTPAddr (utf8 "localhost:4000")) = (utf8 "localhost", 4001) :=
  have h : parseHostPort (utf8 "localhost:4000") = (utf8 "localhost", 4000) := by decide +kernel
  ⟨h, (http_port_agreed h (by decide)).2.2 (by decide)⟩

/-- The server serves `[::1]:4000` with HTTP on port 4001, and both clients call HTTP on port 4000. -/
theorem ipv6_http_port_missed :
    parseHostPort (utf8 "[::1]:4000") = (utf8 "::1", 4000) ∧
      Library.getHTTPAddr (utf8 "[::1]:4000") = utf8 "[::1]:4000" ∧
      Mimorictl.getHTTPAddr (utf8 "[::1]:4000") = utf8 "[::1]:4000" ∧
      parseHostPort (Library.getHTTPAddr (utf8 "[::1]:4000")) ≠ (utf8 "::1", 4001) := by
  decide +kernel

/-! ## Leader addresses -/

/-- The host of the address that the client used, empty if the address has no colon. -/
def baseHostOf (baseAddr : Bytes) : Bytes :=
  match cut 58 baseAddr with
  | (host, _, true) => host
  | (_, _, false) => []

/-- `baseHost == "" || baseHost == "localhost" || strings.HasPrefix(baseHost, "127.")`. -/
def useBaseHost (baseHost : Bytes) : Bool :=
  baseHost == [] || baseHost == utf8 "localhost" || (utf8 "127.").isPrefixOf baseHost

/-- `fmt.Sprintf("%s:%s", host, port)`. -/
def joinHost (host port : Bytes) : Bytes := host ++ 58 :: port

def Library.normalizeLeaderAddr (baseAddr leaderID : Bytes) : Bytes :=
  let leaderID := trimSpace leaderID
  let baseHost := baseHostOf baseAddr
  if leaderID = [] then []
  else if [58].isPrefixOf leaderID then
    if useBaseHost baseHost ∧ baseHost ≠ [] then baseHost ++ leaderID else leaderID
  else if 58 ∉ leaderID then
    if useBaseHost baseHost ∧ baseHost ≠ [] then joinHost baseHost leaderID else 58 :: leaderID
  else
    let (leaderHost, port, ok) := cut 58 leaderID
    if ok = false ∨ port = [] then
      if useBaseHost baseHost ∧ baseHost ≠ [] then baseHost else leaderID
    else if useBaseHost baseHost ∧ baseHost ≠ [] then joinHost baseHost port
    else if leaderHost = [] ∧ baseHost ≠ [] then joinHost baseHost port
    else leaderID

/-- The published port of a Docker node that listens on `portNum`. -/
def externalPort (leaderHost : Bytes) (portNum : Int) : Int :=
  if leaderHost = utf8 "mimori-node1" then 4000
  else if leaderHost = utf8 "mimori-node2" then 4002
  else if leaderHost = utf8 "mimori-node3" then 4004
  else portNum

def Mimorictl.normalizeLeaderAddr (baseAddr leaderID : Bytes) : Bytes :=
  let leaderID := trimSpace leaderID
  let baseHost := baseHostOf baseAddr
  if leaderID = [] then []
  else if [58].isPrefixOf leaderID then
    if useBaseHost baseHost ∧ baseHost ≠ [] then baseHost ++ leaderID else leaderID
  else if 58 ∉ leaderID then
    if useBaseHost baseHost ∧ baseHost ≠ [] then joinHost baseHost leaderID else 58 :: leaderID
  else
    let (leaderHost, port, ok) := cut 58 leaderID
    if ok = false ∨ port = [] then
      if useBaseHost baseHost ∧ baseHost ≠ [] then baseHost else leaderID
    else if useBaseHost baseHost ∧ baseHost ≠ [] ∧ (utf8 "mimori-node").isPrefixOf leaderHost then
      let (portNum, parsed) := atoi port
      if parsed ∧ portNum = 4000 then joinPort baseHost (externalPort leaderHost portNum)
      else joinHost baseHost port
    else if useBaseHost baseHost ∧ baseHost ≠ [] then joinHost baseHost port
    else if leaderHost = [] ∧ baseHost ≠ [] then joinHost baseHost port
    else leaderID

/-- Group 1 of `^mimori-node(\d+):\d+$`. -/
def dockerNodeID (id : Bytes) : Option Bytes :=
  if (utf8 "mimori-node").isPrefixOf id then
    match cut 58 (id.drop (utf8 "mimori-node").length) with
    | (n, port, true) =>
      if n ≠ [] ∧ n.all isDigit = true ∧ port ≠ [] ∧ port.all isDigit = true then some n else none
    | (_, _, false) => none
  else none

/-- What the server's redirects read of an HTTP request. -/
structure HTTPRequest where
  host : Bytes
  tls : Bool
  forwardedProto : Bytes

/-- The host that the browser used. -/
def HTTPRequest.publicHost (r : HTTPRequest) : Bytes :=
  let host := match splitHostPort r.host with
    | some (host, _) => host
    | none => []
  let host := if host = [] then r.host else host
  if host = [] then utf8 "localhost" else host

def HTTPRequest.scheme (r : HTTPRequest) : Bytes :=
  if r.forwardedProto ≠ [] then r.forwardedProto else if r.tls then utf8 "https" else utf8 "http"

def HTTPRequest.base (r : HTTPRequest) (port : Int) : Bytes := r.scheme ++ utf8 "://" ++ joinPort r.publicHost port

def publicHTTPBaseForNodeID (r : HTTPRequest) (nodeID : Bytes) : Bytes :=
  let manual := if (parseHostPort nodeID).2 = 0 then [] else r.base (int64 ((parseHostPort nodeID).2 + 1))
  match dockerNodeID nodeID with
  | some digits =>
    let n := (atoi digits).1
    if 0 < n then
      let grpcHostPort := int64 (4000 + 2 * (n - 1))
      r.base (int64 (grpcHostPort + 1))
    else manual
  | none => manual

/-- The client is outside of the cluster and the leader is a Docker node on port 4000. -/
def dockerLeader (baseAddr leaderID : Bytes) : Bool :=
  let (leaderHost, port, _) := cut 58 (trimSpace leaderID)
  useBaseHost (baseHostOf baseAddr) && baseHostOf baseAddr != [] && (utf8 "mimori-node").isPrefixOf leaderHost &&
    atoi port == (4000, true)

/-- `mimorictl` puts another port in the place of the leader's: the leader is the second or third Docker node, or its
port is 4000 in another spelling. -/
def portMapped (baseAddr leaderID : Bytes) : Bool :=
  let (leaderHost, port, _) := cut 58 (trimSpace leaderID)
  dockerLeader baseAddr leaderID &&
    (leaderHost == utf8 "mimori-node2" || leaderHost == utf8 "mimori-node3" || port != utf8 "4000")

theorem normalizeLeaderAddr_of_docker {leaderID leaderHost : Bytes} {ok : Bool}
    (hcut : cut 58 (trimSpace leaderID) = (leaderHost, port, ok)) (h : dockerLeader baseAddr leaderID = true) :
    Library.normalizeLeaderAddr baseAddr leaderID = joinHost (baseHostOf baseAddr) port ∧
      Mimorictl.normalizeLeaderAddr baseAddr leaderID = joinPort (baseHostOf baseAddr) (externalPort leaderHost 4000) := by
  simp only [dockerLeader, hcut, Bool.and_eq_true, bne_iff_ne, beq_iff_eq] at h
  obtain ⟨⟨huse, hpre⟩, hport⟩ := h
  have hport_ne : port ≠ [] := by
    rintro rfl
    cases hport
  have hok : ok = true := by
    by_contra hno
    rw [Bool.not_eq_true] at hno
    subst hno
    have hnot : 58 ∉ trimSpace leaderID := by
      intro hm
      rw [cut, if_pos hm] at hcut
      cases hcut
    rw [cut_of_notMem hnot] at hcut
    cases hcut
    exact hport_ne rfl
  subst hok
  obtain ⟨hid, hcolon⟩ := eq_append_of_cut hcut
  have hne : trimSpace leaderID ≠ [] := by rw [hid]; simp
  have hmem : 58 ∈ trimSpace leaderID := by rw [hid]; simp
  have hcolon' : ¬ [58].isPrefixOf (trimSpace leaderID) = true := by
    rw [hid]
    cases leaderHost with
    | nil => cases hpre
    | cons c t =>
      rw [List.mem_cons, not_or] at hcolon
      simp [hcolon.1]
  have hbad : ¬ (true = false ∨ port = []) := by simp [hport_ne]
  constructor
  · simp only [Library.normalizeLeaderAddr, hcut, if_neg hne, if_neg hcolon', not_true, hmem, if_false, if_neg hbad,
      if_pos huse]
  · simp only [Mimorictl.normalizeLeaderAddr, hcut, if_neg hne, if_neg hcolon', not_true, hmem, if_false, if_neg hbad,
      huse.1, huse.2, hpre, hport, if_true, and_self, Ne, not_false_eq_true]

theorem normalizeLeaderAddr_of_not_docker {leaderID : Bytes} (h : dockerLeader baseAddr leaderID = false) :
    Library.normalizeLeaderAddr baseAddr leaderID = Mimorictl.normalizeLeaderAddr baseAddr leaderID := by
  unfold Library.normalizeLeaderAddr Mimorictl.normalizeLeaderAddr
  rcases hcut : cut 58 (trimSpace leaderID) with ⟨leaderHost, port, ok⟩
  simp only [dockerLeader, hcut] at h ⊢
  generalize trimSpace leaderID = id at *
  generalize baseHostOf baseAddr = baseHost at *
  split
  · rfl
  · split
    · rfl
    · split
      · rfl
      · split
        · rfl
        · by_cases hd : useBaseHost baseHost = true ∧ baseHost ≠ [] ∧ (utf8 "mimori-node").isPrefixOf leaderHost = true
          · have hport : ¬ ((atoi port).2 = true ∧ (atoi port).1 = 4000) := by
              rintro ⟨hok, hval⟩
              have hatoi : atoi port = (4000, true) := Prod.ext hval hok
              simp [hd.1, hd.2.1, hd.2.2, hatoi] at h
            rw [if_pos ⟨hd.1, hd.2.1⟩, if_pos hd, if_neg hport]
          · rw [if_neg hd]

theorem joinHost_eq_joinPort : joinHost host port = joinPort host p ↔ itoa p = port := by
  rw [joinHost, joinPort, List.append_cancel_left_eq, List.cons.injEq]
  exact ⟨fun h => h.2.symm, fun h => ⟨rfl, h.symm⟩⟩

/-- The published port is that of a text that reads as 4000 unless the node has another or the text is another. -/
theorem itoa_externalPort_eq_iff {leaderHost : Bytes} (hport : atoi port = (4000, true)) :
    itoa (externalPort leaderHost 4000) = port ↔
      leaderHost ≠ utf8 "mimori-node2" ∧ leaderHost ≠ utf8 "mimori-node3" ∧ port = utf8 "4000" := by
  have hother : ∀ p : Int, p = 4002 ∨ p = 4004 → itoa p ≠ port := by
    rintro p hp rfl
    rw [atoi_itoa ⟨by omega, by omega⟩, Prod.mk.injEq] at hport
    omega
  have hsame : itoa 4000 = port ↔ port = utf8 "4000" := by
    rw [show itoa 4000 = utf8 "4000" by decide +kernel]
    exact eq_comm
  unfold externalPort
  by_cases h1 : leaderHost = utf8 "mimori-node1"
  · rw [if_pos h1, hsame, h1]
    exact ⟨fun h => ⟨by decide, by decide, h⟩, fun h => h.2.2⟩
  by_cases h2 : leaderHost = utf8 "mimori-node2"
  · rw [if_neg h1, if_pos h2]
    exact ⟨fun h => absurd h (hother 4002 (.inl rfl)), fun h => absurd h2 h.1⟩
  by_cases h3 : leaderHost = utf8 "mimori-node3"
  · rw [if_neg h1, if_neg h2, if_pos h3]
    exact ⟨fun h => absurd h (hother 4004 (.inr rfl)), fun h => absurd h3 h.2.1⟩
  rw [if_neg h1, if_neg h2, if_neg h3, hsame]
  exact ⟨fun h => ⟨h2, h3, h⟩, fun h => h.2.2⟩

/-- The two clients differ exactly where `mimorictl` puts in another port. -/
theorem normalizeLeaderAddr_eq_iff (baseAddr leaderID : Bytes) :
    Library.normalizeLeaderAddr baseAddr leaderID = Mimorictl.normalizeLeaderAddr baseAddr leaderID ↔
      portMapped baseAddr leaderID = false := by
  rcases hcut : cut 58 (trimSpace leaderID) with ⟨leaderHost, port, ok⟩
  simp only [portMapped, hcut]
  cases hd : dockerLeader baseAddr leaderID with
  | false => simp [normalizeLeaderAddr_of_not_docker hd]
  | true =>
    obtain ⟨hlib, hctl⟩ := normalizeLeaderAddr_of_docker hcut hd
    have hport : atoi port = (4000, true) := by
      simp only [dockerLeader, hcut, Bool.and_eq_true, beq_iff_eq] at hd
      exact hd.2
    rw [hlib, hctl, joinHost_eq_joinPort, itoa_externalPort_eq_iff hport, Bool.true_and, Bool.or_eq_false_iff,
      Bool.or_eq_false_iff, beq_eq_false_iff_ne, beq_eq_false_iff_ne, bne_eq_false_iff_eq, and_assoc]

/-! ## Docker nodes -/

/-- The id of the n-th Docker node. -/
def dockerNode (n : Nat) : Bytes := utf8 "mimori-node" ++ natText n ++ utf8 ":4000"

/-- The gRPC port that the server assigns to the n-th Docker node. -/
def dockerPort (n : Nat) : Nat := 4000 + 2 * (n - 1)

/-- The client reaches the cluster at `localhost` or `127.…`. -/
def isLoopback (baseAddr : Bytes) : Bool :=
  baseHostOf baseAddr == utf8 "localhost" || (utf8 "127.").isPrefixOf (baseHostOf baseAddr)

theorem isLoopback_use (h : isLoopback baseAddr = true) :
    useBaseHost (baseHostOf baseAddr) = true ∧ baseHostOf baseAddr ≠ [] := by
  rw [isLoopback, Bool.or_eq_true, beq_iff_eq] at h
  constructor
  · rcases h with h | h
    · rw [useBaseHost, h]; rfl
    · rw [useBaseHost, h, Bool.or_true]
  · intro hnil
    rw [hnil] at h
    rcases h with h | h
    · exact absurd h (by decide)
    · cases h

theorem colon_not_mem_host (n : Nat) : 58 ∉ utf8 "mimori-node" ++ natText n := by
  rw [List.mem_append, not_or]
  exact ⟨by decide, fun h => absurd (natText_digits n _ h) (by decide)⟩

/-- The characters of a text that is printable ASCII, by evaluation. -/
theorem printable (h : (s.all fun b => decide (33 ≤ b) && decide (b < 0x80)) = true) {b : UInt8} (hb : b ∈ s) :
    33 ≤ b ∧ b < 0x80 := by
  simpa only [Bool.and_eq_true, decide_eq_true_eq] using List.all_eq_true.1 h b hb

theorem trimSpace_dockerNode (n : Nat) : trimSpace (dockerNode n) = dockerNode n := by
  refine trimSpace_ascii fun b hb => ?_
  rw [dockerNode, List.mem_append, List.mem_append] at hb
  rcases hb with (hb | hb) | hb
  · exact printable (by decide) hb
  · obtain ⟨hlo, hhi⟩ := digit_bounds (natText_digits n b hb)
    exact ⟨UInt8.le_trans (by decide) hlo, UInt8.lt_of_le_of_lt hhi (by decide)⟩
  · exact printable (by decide) hb

theorem cut_dockerNode (n : Nat) :
    cut 58 (trimSpace (dockerNode n)) = (utf8 "mimori-node" ++ natText n, utf8 "4000", true) := by
  rw [trimSpace_dockerNode]
  exact cut_append (utf8 "4000") (colon_not_mem_host n)

theorem dockerLeader_dockerNode (h : isLoopback baseAddr = true) (n : Nat) :
    dockerLeader baseAddr (dockerNode n) = true := by
  obtain ⟨huse, hne⟩ := isLoopback_use h
  have hpre : (utf8 "mimori-node").isPrefixOf (utf8 "mimori-node" ++ natText n) = true := by
    rw [List.isPrefixOf_iff_prefix]
    exact List.prefix_append _ _
  have hport : atoi (utf8 "4000") = (4000, true) := by decide +kernel
  simp [dockerLeader, cut_dockerNode, huse, hne, hpre, hport]

theorem externalPort_dockerNode (n : Nat) :
    externalPort (utf8 "mimori-node" ++ natText n) 4000 =
      ((if n = 2 then 4002 else if n = 3 then 4004 else 4000 : Nat) : Int) := by
  have hname : ∀ k : Nat, utf8 "mimori-node" ++ natText n = utf8 "mimori-node" ++ natText k ↔ n = k := fun k => by
    rw [List.append_cancel_left_eq]
    exact ⟨natText_injective, fun h => by rw [h]⟩
  rw [externalPort, show utf8 "mimori-node1" = utf8 "mimori-node" ++ natText 1 by decide +kernel,
    show utf8 "mimori-node2" = utf8 "mimori-node" ++ natText 2 by decide +kernel,
    show utf8 "mimori-node3" = utf8 "mimori-node" ++ natText 3 by decide +kernel]
  simp only [hname]
  split_ifs <;> omega

theorem dockerNodeID_dockerNode (n : Nat) : dockerNodeID (dockerNode n) = some (natText n) := by
  have hpre : (utf8 "mimori-node").isPrefixOf (dockerNode n) = true := by
    rw [List.isPrefixOf_iff_prefix, dockerNode, List.append_assoc]
    exact List.prefix_append _ _
  have hdrop : (dockerNode n).drop (utf8 "mimori-node").length = natText n ++ 58 :: utf8 "4000" := by
    rw [dockerNode, List.append_assoc, List.drop_left]
    rfl
  have hcolon : 58 ∉ natText n := fun h => absurd (natText_digits n _ h) (by decide)
  have hdigits : natText n ≠ [] ∧ (natText n).all isDigit = true ∧ utf8 "4000" ≠ [] ∧
      (utf8 "4000").all isDigit = true :=
    ⟨natText_ne_nil n, List.all_eq_true.2 (natText_digits n), by decide, by decide⟩
  simp only [dockerNodeID, if_pos hpre, hdrop, cut_append _ hcolon, if_pos hdigits]

/-- The server gives the n-th Docker node the HTTP port after its gRPC port `4000 + 2(n-1)`. -/
theorem publicHTTPBaseForNodeID_dockerNode (r : HTTPRequest) (h1 : 1 ≤ n) (hfit : 4000 + 2 * n < 2 ^ 63) :
    publicHTTPBaseForNodeID r (dockerNode n) = r.base (dockerPort n + 1) := by
  have hn : (atoi (natText n)).1 = n := by
    rw [← itoa_natCast, atoi_itoa ⟨by omega, by omega⟩]
  have hgrpc : int64 (4000 + 2 * ((n : Int) - 1)) = dockerPort n := by
    rw [int64_of_fits ⟨by omega, by omega⟩, dockerPort]
    omega
  have hhttp : int64 ((dockerPort n : Int) + 1) = dockerPort n + 1 := by
    rw [dockerPort]
    exact int64_of_fits ⟨by omega, by omega⟩
  simp only [publicHTTPBaseForNodeID, dockerNodeID_dockerNode, hn, hgrpc, hhttp, if_pos (show (0 : Int) < n by omega)]

theorem library_dockerNode (h : isLoopback baseAddr = true) (h1 : 1 ≤ n) :
    Library.normalizeLeaderAddr baseAddr (dockerNode n) = joinPort (baseHostOf baseAddr) (dockerPort n) ↔ n = 1 := by
  obtain ⟨hlib, -⟩ := normalizeLeaderAddr_of_docker (cut_dockerNode n) (dockerLeader_dockerNode h n)
  have htext : utf8 "4000" = itoa (4000 : Nat) := by decide +kernel
  rw [hlib, joinHost_eq_joinPort, htext, itoa_natCast_inj, dockerPort]
  omega

theorem mimorictl_dockerNode (h : isLoopback baseAddr = true) (h1 : 1 ≤ n) :
    Mimorictl.normalizeLeaderAddr baseAddr (dockerNode n) = joinPort (baseHostOf baseAddr) (dockerPort n) ↔ n ≤ 3 := by
  obtain ⟨-, hctl⟩ := normalizeLeaderAddr_of_docker (cut_dockerNode n) (dockerLeader_dockerNode h n)
  rw [hctl, externalPort_dockerNode, joinPort, joinPort, List.append_cancel_left_eq, List.cons.injEq, itoa_natCast_inj,
    and_iff_right rfl, dockerPort]
  split_ifs <;> omega

/-- The clients agree on a leader's address except, for a client outside of the cluster and a Docker node on port 4000,
on the second and the third node and on a port in another spelling. Of the Docker nodes the library finds the port that
the server assigns only to the first and `mimorictl` to the first three. -/
theorem leader_addr_agreed (baseAddr : Bytes) :
    (∀ leaderID, Library.normalizeLeaderAddr baseAddr leaderID = Mimorictl.normalizeLeaderAddr baseAddr leaderID ↔
      portMapped baseAddr leaderID = false) ∧
    (isLoopback baseAddr = true → ∀ n, 1 ≤ n →
      (Library.normalizeLeaderAddr baseAddr (dockerNode n) = joinPort (baseHostOf baseAddr) (dockerPort n) ↔ n = 1) ∧
      (Mimorictl.normalizeLeaderAddr baseAddr (dockerNode n) = joinPort (baseHostOf baseAddr) (dockerPort n) ↔ n ≤ 3) ∧
      ∀ r : HTTPRequest, 4000 + 2 * n < 2 ^ 63 →
        publicHTTPBaseForNodeID r (dockerNode n) = r.base (dockerPort n + 1)) := by
  refine ⟨normalizeLeaderAddr_eq_iff baseAddr, fun h n h1 => ⟨library_dockerNode h h1, mimorictl_dockerNode h h1, ?_⟩⟩
  intro r hfit
  exact publicHTTPBaseForNodeID_dockerNode r h1 hfit

theorem leader_addr_agreed_localhost :
    Library.normalizeLeaderAddr (utf8 "localhost:4000") (utf8 " 10.0.0.7:4000 ") =
        Mimorictl.normalizeLeaderAddr (utf8 "localhost:4000") (utf8 " 10.0.0.7:4000 ") ∧
      Library.normalizeLeaderAddr (utf8 "localhost:4000") (dockerNode 1) =
        joinPort (baseHostOf (utf8 "localhost:4000")) (dockerPort 1) ∧
      Mimorictl.normalizeLeaderAddr (utf8 "localhost:4000") (dockerNode 3) =
        joinPort (baseHostOf (utf8 "localhost:4000")) (dockerPort 3) ∧
      publicHTTPBaseForNodeID ⟨utf8 "localhost:4001", false, []⟩ (dockerNode 3) =
        HTTPRequest.base ⟨utf8 "localhost:4001", false, []⟩ (dockerPort 3 + 1) := by
  have hbase : isLoopback (utf8 "localhost:4000") = true := by decide +kernel
  obtain ⟨hagree, hdocker⟩ := leader_addr_agreed (utf8 "localhost:4000")
  refine ⟨(hagree _).2 (by decide +kernel), (hdocker hbase 1 (by decide)).1.2 rfl, ?_, ?_⟩
  · exact (hdocker hbase 3 (by decide)).2.1.2 (by decide)
  · exact (hdocker hbase 3 (by decide)).2.2 _ (by decide)

/-- For the second Docker node the two clients dial different ports, and for the fourth both dial the first. -/
theorem docker_ports_differ :
    isLoopback (utf8 "localhost:4000") = true ∧ dockerNode 2 = utf8 "mimori-node2:4000" ∧
      Library.normalizeLeaderAddr (utf8 "localhost:4000") (dockerNode 2) = utf8 "localhost:4000" ∧
      Mimorictl.normalizeLeaderAddr (utf8 "localhost:4000") (dockerNode 2) = utf8 "localhost:4002" ∧
      Library.normalizeLeaderAddr (utf8 "localhost:4000") (dockerNode 4) = utf8 "localhost:4000" ∧
      Mimorictl.normalizeLeaderAddr (utf8 "localhost:4000") (dockerNode 4) = utf8 "localhost:4000" ∧
      publicHTTPBaseForNodeID ⟨utf8 "localhost:4001", false, []⟩ (dockerNode 4) = utf8 "http://localhost:4007" := by
  decide +kernel

end Mimori
