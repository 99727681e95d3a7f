import BlockScript.Equality
import BlockScript.Fault
import BlockScript.Store.Definition

namespace BlockScript.Store

variable (σ : Store) (s : ScopeId)

def setMixins (ms : List ScopeId) : Store :=
  σ.modify s fun c => { c with mixins := ms }

def hasMixin? (source : ScopeId) : Option Bool :=
  σ.contains? ((σ.get s).mixins.map .scope) (.scope source)

def addMixin (source : ScopeId) : Except Fault Store :=
  match σ.hasMixin? s source with
  | some true => .ok σ
  | some false => .ok (σ.setMixins s ((σ.get s).mixins ++ [source]))
  | none => .error .endless

def addMixins (sources : List ScopeId) : Except Fault Store :=
  sources.foldlM (fun τ source => τ.addMixin s source) σ

def install (source : ScopeId) : Except Fault Store :=
  match σ.hasMixin? s source with
  | some true => .ok σ
  | some false => .ok (σ.setMixins s (source :: (σ.get s).mixins))
  | none => .error .endless

def member (v : Term) : Except Fault Bool :=
  match σ.items? s, v with
  | some xs, _ => (σ.contains? xs v).elim (.error .endless) .ok
  | none, .str n => σ.binds s n
  | none, _ => .ok false

end BlockScript.Store
