import AtlasNative.SubscriptionPayload

/-!
# The HTTP part of the configuration

`HttpConfig::FromJson` takes what the document says and the defaults for the rest. It asks
for the type of a value, through the assertions of rapidjson, and not for its sign.
-/

namespace AtlasNative

set_option autoImplicit false

namespace JsonValue
variable (ndebug : Bool)

/-- `data_.n.i.i` behind the assertion is 0 for a null or a boolean. -/
def GetInt : JsonValue → Except Fault ℤ
  | integer n =>
    if -2 ^ 31 ≤ n ∧ n < 2 ^ 31 then .ok n else assertFailed ndebug (.error .undefined)
  | null => assertFailed ndebug (.ok 0)
  | bool _ => assertFailed ndebug (.ok 0)
  | _ => assertFailed ndebug (.error .undefined)

/-- Behind the assertion the flags are not those of `true`. -/
def GetBool : JsonValue → Except Fault Bool
  | bool b => .ok b
  | _ => assertFailed ndebug (.ok false)

end JsonValue

structure HttpConfig where
  connect_timeout : ℤ
  read_timeout : ℤ
  batch_size : ℤ
  send_in_parallel : Bool
  deriving DecidableEq

namespace HttpConfig

/-- `HttpConfig()` -/
def initial : HttpConfig := ⟨6, 20, 10000, false⟩

def memberOr {α : Type} (members : List (String × JsonValue)) (name : String)
    (Get : JsonValue → Except Fault α) (value : α) : Except Fault α :=
  match members.lookup name with
  | some v => Get v
  | none => .ok value

def FromJson (ndebug : Bool) (document : JsonValue) (defaults : HttpConfig) :
    Except Fault HttpConfig :=
  match document with
  | .object members => do
    let connect_timeout ← memberOr members "connectTimeout" (·.GetInt ndebug)
      defaults.connect_timeout
    let read_timeout ← memberOr members "readTimeout" (·.GetInt ndebug) defaults.read_timeout
    let batch_size ← memberOr members "batchSize" (·.GetInt ndebug) defaults.batch_size
    let send_in_parallel ← memberOr members "sendInParallel" (·.GetBool ndebug)
      defaults.send_in_parallel
    return ⟨connect_timeout, read_timeout, batch_size, send_in_parallel⟩
  | _ => assertFailed ndebug (.error .undefined)

theorem FromJson_batchSize (ndebug : Bool) {members : List (String × JsonValue)} {n : ℤ}
    (hn : -2 ^ 31 ≤ n ∧ n < 2 ^ 31) (h : members.lookup "batchSize" = some (.integer n))
    {defaults config : HttpConfig}
    (hconfig : FromJson ndebug (.object members) defaults = .ok config) :
    config.batch_size = n := by
  have hget : memberOr members "batchSize" (·.GetInt ndebug) defaults.batch_size = .ok n := by
    rw [memberOr, h]
    exact if_pos hn
  simp only [FromJson, hget, ExceptRuns.bind_eq_ok] at hconfig
  obtain ⟨_, _, _, _, batch_size, hbatch, _, _, hret⟩ := hconfig
  cases hbatch
  rw [← Except.ok.inj hret]

end HttpConfig

end AtlasNative
