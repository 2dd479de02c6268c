/-
  Which attempts are trusted enough to train on, and the time-ordered history they come from.
-/
import LoginForest.Attempt.Basic
import LoginForest.Json.Decode
import LoginForest.Json.Encode

namespace LoginForest

/-- Names of networks in ascending order, each once. -/
def insertName (name : String) : List String → List String
  | [] => [name]
  | n :: ns =>
    if name < n then name :: n :: ns
    else if name = n then n :: ns
    else n :: insertName name ns

/-- An attempt is trusted when its network is known and not excluded. -/
structure TrustPolicy where
  excluded : List String
deriving DecidableEq, Repr

namespace TrustPolicy

/-- The policy that excludes no network. -/
def empty : TrustPolicy := ⟨[]⟩

def exclude (name : String) (p : TrustPolicy) : TrustPolicy := ⟨insertName name p.excluded⟩

def ofList (names : List String) : TrustPolicy := names.foldl (fun p n => p.exclude n) empty

/-- Hosting, virtual private and anonymising networks. -/
def standard : TrustPolicy :=
  ofList ["AS9009 M247", "AS16276 OVH", "AS14061 DigitalOcean", "AS138915 Cloud9",
    "AS60068 Datacamp", "AS202425 1984", "AS50613 Arktur", "AS13335 Cloudflare",
    "AS45102 Alibaba", "AS200130 Tor-Exit", "AS56630 Tor-Exit"]

def trusts (p : TrustPolicy) (a : Attempt) : Bool :=
  match a.network with
  | some name => !p.excluded.contains name
  | none => false

/-- The trusted attempts in their order. -/
def select (p : TrustPolicy) (attempts : List Attempt) : List Attempt :=
  attempts.filter p.trusts

def ofNode? (n : Json.Node) : Option TrustPolicy := do
  let fields ← n.fields? false ["excluded_asns"]
  let names ← fields.required? "excluded_asns" (Json.Node.list? Json.Node.text?)
  return ofList names

end TrustPolicy

/-- Attempts in time order, with the policy or the explicit set that says which are trusted. -/
structure History where
  attempts : List Attempt
  explicit : Option (List Attempt)
  policy : TrustPolicy

namespace History

def ofAttempts (attempts : List Attempt) : History := ⟨inTimeOrder attempts, none, .standard⟩

def withPolicy (policy : TrustPolicy) (h : History) : History := { h with policy }

/-- Use these attempts as the trusted ones, whatever the policy says. -/
def withTrusted (trusted : List Attempt) (h : History) : History :=
  { h with explicit := some (inTimeOrder trusted) }

/-- The trusted attempts in time order. -/
def trusted (h : History) : List Attempt :=
  match h.explicit with
  | some attempts => attempts
  | none => h.policy.select h.attempts

end History

end LoginForest
