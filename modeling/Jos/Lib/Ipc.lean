import Jos.Kern.State

/-!
# Finding an environment

`ipc_find_env` of `lib/ipc.c`. User code reads the table of the kernel, which is mapped at
`UENVS`; the other functions of that file are not implemented.
-/

namespace Jos

/-- `ipc_find_env(type)`. -/
def ipcFindEnv (envs : Fin nenv → Env) (type : EnvType) : Word :=
  match (List.finRange nenv).find? fun i => (envs i).envType = type with
  | some i => (envs i).envId
  | none => 0#32

end Jos
