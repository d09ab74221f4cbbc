/-
# `YaojJudger.Hook` — chains of hooks

`hook.c`.  A chain is a linked list to which `register_hook` adds at the
front, so the hooks run in the reverse of the order in which they were
registered; `run_hook_chain` stops at the first one that fails and passes on
`yerrno`.
-/
import YaojJudger.Context

namespace YaojJudger

open Posix

/-- `enum HOOK_TYPE`. -/
inductive HookType where
  | beforeFork | afterFork | afterWait
  deriving DecidableEq, Repr

/-- The chain of a type. -/
def HookCtxt.chain {H : Type} (hctxt : HookCtxt H) : HookType → List H
  | .beforeFork => hctxt.beforeFork
  | .afterFork => hctxt.afterFork
  | .afterWait => hctxt.afterWait

section
variable {H : Type}

/-- `run_hook_chain`, where `hook h` is the function `h` stands for. -/
def runHookChain (hook : H → Code Int) : List H → Code Int
  | [] => return 0
  | h :: next => do
      if (← hook h) ≠ 0 then yreturnYerrno
      else runHookChain hook next

def hookCtxtCreate : HookCtxt H := { beforeFork := [], afterFork := [], afterWait := [] }

def pushfrontHook (phead : List H) (hook : H) : List H := hook :: phead

def registerHook (ctxt : HookCtxt H) (type : HookType) (hook : H) : HookCtxt H :=
  match type with
  | .beforeFork => { ctxt with beforeFork := pushfrontHook ctxt.beforeFork hook }
  | .afterFork => { ctxt with afterFork := pushfrontHook ctxt.afterFork hook }
  | .afterWait => { ctxt with afterWait := pushfrontHook ctxt.afterWait hook }

/-- A chain of hooks confined to calls of `B` is confined to them. -/
theorem only_runHookChain {B : Call → Prop} {hook : H → Code Int}
    (hask : ∀ errnum, B (.ask (.strerr errnum))) :
    ∀ {chain : List H}, (∀ h ∈ chain, Code.Only B (hook h)) →
      Code.Only B (runHookChain hook chain)
  | [], _ => Code.only_pure 0
  | h :: _, hB =>
      Code.only_bind (hB h List.mem_cons_self) fun _ =>
        Code.only_ite
          (Code.only_bind Code.only_get fun _ =>
            Code.only_bind (Code.only_call (hask _)) fun _ =>
              Code.only_bind (Code.only_modify _) fun _ => Code.only_pure _)
          (only_runHookChain hask fun h' hm => hB h' (List.mem_cons_of_mem h hm))

end

/-- `register_builtin_hook`, in the order of its calls. -/
def registerBuiltinHook (hctxt : HookCtxt Hook) : HookCtxt Hook :=
  let hctxt := registerHook hctxt .beforeFork .initResultBeforeFork
  let hctxt := registerHook hctxt .beforeFork .compilePolicyBeforeFork
  let hctxt := registerHook hctxt .afterFork .startKillerAfterFork
  let hctxt := registerHook hctxt .afterFork .timerAfterFork
  let hctxt := registerHook hctxt .afterWait .analyzeAfterWait
  let hctxt := registerHook hctxt .afterWait .stopKillerAfterWait
  let hctxt := registerHook hctxt .afterWait .getUsageAfterWait
  registerHook hctxt .afterWait .timerAfterWait

end YaojJudger
