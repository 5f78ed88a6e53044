import Aesd.Library.Ledger
import Aesd.Server.Signals

namespace AesdSocket
open Kernel ThreadManager ClientHandler Ledger

-- where main is; exitSocketListen and exitSocketCreation only write to the log and fall through
inductive Line where
  | getaddrinfo
  | socket
  | bind
  | listen
  | startDaemon
  | firstFork
  | secondFork
  | acceptConnections
  | exitSocketBind
  | exitFreeAddrinfoStruct
  | cleanupServer (pc : FramePc)
  | exited
  deriving DecidableEq, Repr

-- thread_manager is empty until connections are accepted
structure Program where
  line : Line
  process : Process

def programStart : Program := ⟨.getaddrinfo,processStart⟩

inductive Fork where
  | failed
  | parent
  | child
  deriving DecidableEq, Repr

-- call is the result of getaddrinfo, socket, bind or listen, and getopt that of the command line
inductive Call where
  | call (ok : Bool)
  | getopt (isDaemon : Option Bool)
  | fork (result : Fork)
  | main
  | serve (l : Label)

def afterCall (ok : Bool) : Line → Option Line
  | .getaddrinfo => some (if ok then .socket else .exitFreeAddrinfoStruct)
  | .socket => some (if ok then .bind else .exitFreeAddrinfoStruct)
  | .bind => some (if ok then .listen else .exitSocketBind)
  | .listen => some (if ok then .startDaemon else .exitSocketBind)
  | _ => none

def afterFork (next : Line) : Fork → Line
  | .failed => .cleanupServer (.freeall .check)
  | .parent => .exited
  | .child => next

def startDaemon : Option Bool → Line
  | none => .exited
  | some isDaemon => if isDaemon then .firstFork else .acceptConnections

def exitLine (s : Program) : Option Program :=
  match s.line with
  | .exitSocketBind => some { s with line := .exitFreeAddrinfoStruct }
  | .exitFreeAddrinfoStruct => some { s with line := .cleanupServer (.freeall .check) }
  | .cleanupServer .exit => some { s with line := .exited }
  | .cleanupServer pc => (cleanupServer .main s.process.server.manager pc).map fun x =>
      ⟨.cleanupServer x.1,s.process.setManager x.2⟩
  | _ => none

-- accept_connections does not return, so main is in it to the end
def programStep (useAesdCharDevice : Bool) (s : Program) : Call → Option Program
  | .call ok => (afterCall ok s.line).map fun line => { s with line := line }
  | .getopt isDaemon =>
      if s.line = .startDaemon then some { s with line := startDaemon isDaemon } else none
  | .fork result =>
      if s.line = .firstFork then some { s with line := afterFork .secondFork result }
      else if s.line = .secondFork then some { s with line := afterFork .acceptConnections result }
      else none
  | .main => exitLine s
  | .serve l =>
      if s.line = .acceptConnections then
        (processStep useAesdCharDevice s.process l).map fun process => { s with process := process }
      else none

-- socket is the descriptor in server_socket_fd
inductive Resource where
  | addrinfo
  | socket
  | entry (p : ℕ)
  deriving DecidableEq

def cleanupActions (m : Manager) : FramePc → List (Action Resource)
  | .freeall (.removing _ threadId) =>
      (m.findEntry threadId).toList.map fun entry => .release (.entry entry)
  | .closeServer => [.release .socket]
  | .freeAddrinfo => [.release .addrinfo]
  | _ => []

def serverActions (s : Server) : ThreadManager.Label → List (Action Resource)
  | .create mallocOk strdupOk =>
      if !mallocOk then []
      else if !strdupOk then
        [.acquire (.entry s.manager.next),.release (.entry s.manager.next)]
      else [.acquire (.entry s.manager.next)]
  | .spawn none => match s.main with
      | .spawn _ newConnection => [.release (.entry newConnection)]
      | _ => []
  | .main => match s.main with
      | .removing _ threadId =>
          (s.manager.findEntry threadId).toList.map fun entry => .release (.entry entry)
      | _ => []
  | _ => []

def processActions (s : Process) : Label → List (Action Resource)
  | .thread l => serverActions s.server l
  | .handler t _ => ((s.frames t).head?.elim [] fun f => cleanupActions s.server.manager f.pc)
  | _ => []

def programActions (s : Program) : Call → List (Action Resource)
  | .call ok => match s.line with
      | .getaddrinfo => if ok then [.acquire .addrinfo] else []
      | .socket => if ok then [.acquire .socket] else []
      | _ => []
  | .main => match s.line with
      | .exitSocketBind => [.release .socket]
      | .exitFreeAddrinfoStruct => [.release .addrinfo]
      | .cleanupServer pc => cleanupActions s.process.server.manager pc
      | _ => []
  | .serve l => processActions s.process l
  | _ => []

-- how many of the socket and the address list cleanup_server has released before pc
def stage : FramePc → ℕ
  | .freeAddrinfo => 1
  | .closeLog | .exit => 2
  | _ => 0

def threads (s : Process) : List Thread :=
  .main :: (List.range s.server.manager.next).map .worker

-- the four calls of main succeed, and a further SIGINT or SIGTERM comes only to the thread that
-- already handles one, before that handler has closed the socket
def exitsOnce (s : Program) : Call → Bool
  | .call ok => ok
  | .serve (.deliver t sig) => sig = .sigalrm ||
      (threads s.process).all (fun u => u = t || !cleaning (s.process.frames u)) &&
      (s.process.frames t).all fun f => stage f.pc = 0
  | _ => true

end AesdSocket
