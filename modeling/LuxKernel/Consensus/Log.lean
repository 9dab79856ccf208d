import LuxKernel.Types
import LuxKernel.Heapless.Containers
import LuxKernel.Replication.Log

namespace LuxKernel.Consensus

open Heapless

-- Terms and indices are `u64` in the source. Here they are natural numbers, and
-- every addition that the source performs on them goes through `addU64`.
structure LogEntry where
  term : Nat
  src : NodeId
  dst : NodeId
deriving DecidableEq, Repr

instance : Replication.Stamped LogEntry := ⟨LogEntry.term⟩

@[simp] theorem stamp_eq_term (entry : LogEntry) : Replication.Stamped.stamp entry = entry.term :=
  rfl

-- Capacity of a node's log, and of the entries of one `AppendEntries` message.
def LOG_CAPACITY : Nat := 256
def BATCH_CAPACITY : Nat := 16

structure RaftLog (N : Nat) where
  entries : HVec LogEntry N
deriving DecidableEq, Repr

namespace RaftLog

variable {N : Nat}

def new : RaftLog N := ⟨HVec.empty⟩

-- The flag is `false` when the log is at capacity, and the log is then unchanged.
def append (log : RaftLog N) (entry : LogEntry) : Bool × RaftLog N :=
  match log.entries.push entry with
  | some entries => (true, ⟨entries⟩)
  | none => (false, log)

-- Indices are 1-based.
def get (log : RaftLog N) (index : Nat) : Option LogEntry :=
  if index = 0 then none else log.entries.toList[index - 1]?

def len (log : RaftLog N) : Nat := log.entries.length

def lastTerm (log : RaftLog N) : Nat := (log.entries.toList.getLast?).elim 0 LogEntry.term

def lastIndex (log : RaftLog N) : Nat := log.entries.length

def termAt (log : RaftLog N) (index : Nat) : Option Nat := (log.get index).map LogEntry.term

def truncateFrom (log : RaftLog N) (fromIndex : Nat) : RaftLog N :=
  if fromIndex = 0 then log else ⟨log.entries.truncate (fromIndex - 1)⟩

-- The entries as a plain list, position `k` holding index `k + 1`.
def toList (log : RaftLog N) : List LogEntry := log.entries.toList

@[ext] theorem ext {log other : RaftLog N} (h : log.toList = other.toList) : log = other := by
  cases log; cases other
  simp only [mk.injEq]
  exact HVec.ext h

theorem length_le (log : RaftLog N) : log.toList.length ≤ N := log.entries.length_le

@[simp] theorem lastIndex_eq (log : RaftLog N) : log.lastIndex = log.toList.length := rfl

@[simp] theorem len_eq (log : RaftLog N) : log.len = log.toList.length := rfl

theorem lastTerm_eq (log : RaftLog N) : log.lastTerm = Replication.lastStamp log.toList := rfl

@[simp] theorem get_succ (log : RaftLog N) (k : Nat) : log.get (k + 1) = log.toList[k]? := rfl

@[simp] theorem termAt_succ (log : RaftLog N) (k : Nat) :
    log.termAt (k + 1) = (log.toList[k]?).map LogEntry.term := rfl

@[simp] theorem toList_truncateFrom_succ (log : RaftLog N) (k : Nat) :
    (log.truncateFrom (k + 1)).toList = log.toList.take k := rfl

theorem append_of_lt {log : RaftLog N} (h : log.toList.length < N) (entry : LogEntry) :
    (log.append entry).1 = true ∧ (log.append entry).2.toList = log.toList ++ [entry] := by
  unfold append
  cases hp : log.entries.push entry with
  | none =>
      have := HVec.push_eq_none_iff.mp hp
      exact absurd h (Nat.not_lt.mpr this)
  | some entries => exact ⟨rfl, (HVec.push_eq_some_iff.mp hp).2⟩

theorem append_of_le {log : RaftLog N} (h : N ≤ log.toList.length) (entry : LogEntry) :
    log.append entry = (false, log) := by
  unfold append
  rw [HVec.push_eq_none_iff.mpr h]

end RaftLog

-- The other members of the cluster, in the order in which they were added.
structure PeerSet where
  peers : HVec NodeId MAX_PEERS
deriving DecidableEq, Repr

namespace PeerSet

def new : PeerSet := ⟨HVec.empty⟩

def add (peerSet : PeerSet) (peer : NodeId) : Result PeerSet :=
  match peerSet.peers.push peer with
  | some peers => .ok ⟨peers⟩
  | none => .error (.manifestInvalid "consensus peer set is full (max 16)")

def len (peerSet : PeerSet) : Nat := peerSet.peers.length

def quorumThreshold (peerSet : PeerSet) : Nat :=
  if peerSet.peers.toList.isEmpty then 0 else peerSet.peers.length / 2 + 1

end PeerSet

inductive RaftMessage where
  | requestVote (term : Nat) (candidateId : NodeId) (lastLogIndex lastLogTerm : Nat)
  | requestVoteReply (term : Nat) (voteGranted : Bool)
  | appendEntries (term : Nat) (leaderId : NodeId) (prevLogIndex prevLogTerm : Nat)
      (entries : HVec LogEntry BATCH_CAPACITY) (leaderCommit : Nat)
  | appendEntriesReply (term : Nat) (success : Bool) (matchIndex : Nat)
deriving DecidableEq, Repr

end LuxKernel.Consensus
