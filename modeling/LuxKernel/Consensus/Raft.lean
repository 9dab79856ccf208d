import LuxKernel.Consensus.Log
import Mathlib.Data.Fintype.Basic
import Mathlib.Logic.Function.Basic

namespace LuxKernel.Consensus

open Function Heapless

inductive RaftRole where
  | follower
  | candidate
  | leader
deriving DecidableEq, Repr

-- `[u64; MAX_PEERS]`, one slot for each peer.
abbrev Slots := Fin MAX_PEERS → Nat

-- The messages handed to `transport.send`, each with its addressee, in order.
abbrev Sent := List (NodeId × RaftMessage)

structure RaftNode where
  id : NodeId
  role : RaftRole
  currentTerm : Nat
  votedFor : Option NodeId
  log : RaftLog LOG_CAPACITY
  commitIndex : Nat
  votesGranted : Nat
  peers : HVec NodeId MAX_PEERS
  nextIndex : Slots
  matchIndex : Slots
deriving DecidableEq

namespace RaftNode

-- The peer set has the capacity of the node's own list, so no `push` fails.
def new (id : NodeId) (peerSet : PeerSet) : RaftNode where
  id := id
  role := .follower
  currentTerm := 0
  votedFor := none
  log := .new
  commitIndex := 0
  votesGranted := 0
  peers := peerSet.peers
  nextIndex := fun _ => 1
  matchIndex := fun _ => 0

def isLeader (node : RaftNode) : Bool := decide (node.role = .leader)

def logLen (node : RaftNode) : Nat := node.log.len

-- An array access. `none` is the panic of an index out of bounds.
def slot (idx : Nat) : Option (Fin MAX_PEERS) :=
  if h : idx < MAX_PEERS then some ⟨idx, h⟩ else none

def becomeLeader (node : RaftNode) : Option RaftNode := do
  let next ← addU64 node.log.lastIndex 1
  return { node with
    role := .leader
    nextIndex := fun i => if i.val < node.peers.length then next else node.nextIndex i
    matchIndex := fun i => if i.val < node.peers.length then 0 else node.matchIndex i }

-- `self.peers.len().div_ceil(2) + 1`.
def quorum (node : RaftNode) : Nat := (node.peers.length + 1) / 2 + 1

def peerIndex (node : RaftNode) (peer : NodeId) : Option Nat :=
  node.peers.toList.findIdx? (fun p => decide (p = peer))

def stepDown (node : RaftNode) (term : Nat) : RaftNode :=
  { node with currentTerm := term, role := .follower, votedFor := none }

def logUpToDateFor (node : RaftNode) (lastLogIndex lastLogTerm : Nat) : Bool :=
  decide (lastLogTerm > node.log.lastTerm) ||
    (decide (lastLogTerm = node.log.lastTerm) && decide (lastLogIndex ≥ node.log.lastIndex))

def startElection (node : RaftNode) : Option (RaftNode × Sent) := do
  let term ← addU64 node.currentTerm 1
  let node := { node with
    currentTerm := term
    role := .candidate
    votedFor := some node.id
    votesGranted := 1 }
  if node.peers.toList.isEmpty then
    return (← node.becomeLeader, [])
  let msg := RaftMessage.requestVote node.currentTerm node.id node.log.lastIndex node.log.lastTerm
  return (node, node.peers.toList.map fun peer => (peer, msg))

-- The `while let` loop of `send_ae_to`. It stops at the end of the log, or when
-- the batch is full, which it is after `BATCH_CAPACITY` rounds.
def collectEntries (log : RaftLog LOG_CAPACITY) :
    Nat → Nat → HVec LogEntry BATCH_CAPACITY → Option (HVec LogEntry BATCH_CAPACITY)
  | 0, _, entries => some entries
  | fuel + 1, idx, entries =>
      match log.get idx with
      | none => some entries
      | some entry =>
          match entries.push entry with
          | none => some entries
          | some entries => do collectEntries log fuel (← addU64 idx 1) entries

def sendAeTo (node : RaftNode) (peerIdx : Nat) : Option Sent :=
  match node.peers.toList[peerIdx]? with
  | none => some []
  | some peer => do
      let i ← slot peerIdx
      let next := node.nextIndex i
      let prevIndex := next - 1
      let prevTerm := if prevIndex = 0 then 0 else (node.log.termAt prevIndex).getD 0
      let entries ← collectEntries node.log (BATCH_CAPACITY + 1) next HVec.empty
      return [(peer, .appendEntries node.currentTerm node.id prevIndex prevTerm entries
        node.commitIndex)]

def propose (node : RaftNode) (src dst : NodeId) : Option (Result Unit × RaftNode × Sent) :=
  if node.role ≠ .leader then
    some (.error (.undefinedState "raft: cannot propose — not leader"), node, [])
  else
    match node.log.append { term := node.currentTerm, src := src, dst := dst } with
    | (false, _) => some (.error (.quotaExceeded "raft log at capacity"), node, [])
    | (true, log) =>
        let node := { node with log := log }
        if node.peers.toList.isEmpty then
          some (.ok (), { node with commitIndex := node.log.lastIndex }, [])
        else do
          let sent ← (List.range node.peers.length).mapM node.sendAeTo
          return (.ok (), node, sent.flatten)

def onRequestVote (node : RaftNode) (sender : NodeId) (term : Nat) (candidateId : NodeId)
    (lastLogIndex lastLogTerm : Nat) : RaftNode × Sent :=
  let node := if term > node.currentTerm then node.stepDown term else node
  let logOk := node.logUpToDateFor lastLogIndex lastLogTerm
  let canVote := node.votedFor.elim true fun v => decide (v = candidateId)
  let voteGranted := decide (term ≥ node.currentTerm) && logOk && canVote
  let node := if voteGranted then { node with votedFor := some candidateId } else node
  (node, [(sender, .requestVoteReply node.currentTerm voteGranted)])

def onVoteReply (node : RaftNode) (term : Nat) (voteGranted : Bool) : Option RaftNode :=
  if term > node.currentTerm then some (node.stepDown term)
  else if node.role ≠ .candidate ∨ term ≠ node.currentTerm then some node
  else do
    let votes ← (if voteGranted then addU64 node.votesGranted 1 else some node.votesGranted)
    let node := { node with votesGranted := votes }
    if node.votesGranted ≥ node.quorum then node.becomeLeader else return node

-- One round of the loop of `append_log_entries`.
def appendLogEntry (state : RaftLog LOG_CAPACITY × Nat) (entry : LogEntry) :
    Option (RaftLog LOG_CAPACITY × Nat) := do
  let (log, logIdx) := state
  let log := match log.termAt logIdx with
    | some existingTerm => if existingTerm ≠ entry.term then log.truncateFrom logIdx else log
    | none => log
  let log := if (log.get logIdx).isNone then (log.append entry).2 else log
  return (log, ← addU64 logIdx 1)

def appendLogEntries (node : RaftNode) (prevLogIndex : Nat) (entries : List LogEntry) :
    Option (Nat × RaftNode) := do
  let logIdx ← addU64 prevLogIndex 1
  let (log, _) ← entries.foldlM appendLogEntry (node.log, logIdx)
  return (← addU64 prevLogIndex entries.length, { node with log := log })

def onAppendEntries (node : RaftNode) (sender : NodeId) (term prevLogIndex prevLogTerm : Nat)
    (entries : HVec LogEntry BATCH_CAPACITY) (leaderCommit : Nat) : Option (RaftNode × Sent) :=
  if term < node.currentTerm then
    some (node, [(sender, .appendEntriesReply node.currentTerm false 0)])
  else
    let node := if term > node.currentTerm then node.stepDown term
      else { node with role := .follower }
    let prevOk := decide (prevLogIndex = 0) ||
      decide (node.log.termAt prevLogIndex = some prevLogTerm)
    if !prevOk then
      some (node, [(sender, .appendEntriesReply node.currentTerm false 0)])
    else do
      let (matchIndex, node) ← node.appendLogEntries prevLogIndex entries.toList
      let node := if leaderCommit > node.commitIndex then
        { node with commitIndex := min leaderCommit node.log.lastIndex } else node
      return (node, [(sender, .appendEntriesReply node.currentTerm true matchIndex)])

-- `1 + self.match_index[..n_peers].iter().filter(|&&m| m >= n).count()`.
def ackCount (node : RaftNode) (n : Nat) : Nat :=
  1 + ((List.ofFn node.matchIndex).take node.peers.length).countP (fun m => decide (n ≤ m))

-- The body of the loop of `advance_commit_index` breaks at the first index, from
-- the end of the log down, that has the current term and enough acknowledgements.
def advanceCommitIndex (node : RaftNode) : Option (Bool × RaftNode) := do
  let old := node.commitIndex
  let first ← addU64 node.commitIndex 1
  let indices := (List.range' first (node.log.lastIndex + 1 - first)).reverse
  let node := match indices.find? (fun n =>
      decide (node.log.termAt n = some node.currentTerm) && decide (node.ackCount n ≥ node.quorum)) with
    | some n => { node with commitIndex := n }
    | none => node
  return (decide (node.commitIndex > old), node)

def onAeReply (node : RaftNode) (sender : NodeId) (term : Nat) (success : Bool)
    (matchIndex : Nat) : Option (Option LogEntry × RaftNode) :=
  if term > node.currentTerm then some (none, node.stepDown term)
  else if node.role ≠ .leader ∨ term ≠ node.currentTerm then some (none, node)
  else
    match node.peerIndex sender with
    | none => some (none, node)
    | some peerIdx => do
        let i ← slot peerIdx
        if success then
          let next ← addU64 matchIndex 1
          let node := { node with
            nextIndex := update node.nextIndex i next
            matchIndex := update node.matchIndex i matchIndex }
          let (advanced, node) ← node.advanceCommitIndex
          return (if advanced then node.log.get node.commitIndex else none, node)
        else if node.nextIndex i > 1 then
          return (none, { node with nextIndex := update node.nextIndex i (node.nextIndex i - 1) })
        else
          return (none, node)

-- The committed entry, if any, the new state and the messages sent.
def step (node : RaftNode) (sender : NodeId) :
    RaftMessage → Option (Option LogEntry × RaftNode × Sent)
  | .requestVote term candidateId lastLogIndex lastLogTerm =>
      some (none, node.onRequestVote sender term candidateId lastLogIndex lastLogTerm)
  | .requestVoteReply term voteGranted => do
      return (none, ← node.onVoteReply term voteGranted, [])
  | .appendEntries term _ prevLogIndex prevLogTerm entries leaderCommit => do
      return (none, ← node.onAppendEntries sender term prevLogIndex prevLogTerm entries leaderCommit)
  | .appendEntriesReply term success matchIndex => do
      let (committed, node) ← node.onAeReply sender term success matchIndex
      return (committed, node, [])

end RaftNode

end LuxKernel.Consensus
